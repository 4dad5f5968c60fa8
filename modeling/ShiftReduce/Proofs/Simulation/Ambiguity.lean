/-
Ambiguous grammars have conflicts.

Without conflicts the machine follows every derivation of a text from the start symbol to
acceptance. As it is deterministic, all of them are one derivation.

* `Tabulated.eq_of_yields` — without conflicts a text is yielded in one way at most;
* `hasConflict_of_rightmost_ne` — a text with two rightmost derivations makes a conflict.
-/
import ShiftReduce.Proofs.Simulation.Completeness

namespace ShiftReduce

/-- Without conflicts a text is yielded in one way at most. -/
theorem Tabulated.eq_of_yields {g : Grammar} {a : Augmented} {full : Bool} {m : Automaton}
    {t : Table} (h : Tabulated g a full m t) (hfree : t.hasConflict = false) {ns ns' : List Nat}
    {w : List Symbol} (hy : g.Yields [a.goal] ns w) (hy' : g.Yields [a.goal] ns' w) : ns = ns' := by
  obtain ⟨c, moves, hruns, rfl, _, _, _, _, haccept⟩ := h.accepts_of_yields hfree hy
  obtain ⟨c', moves', hruns', rfl, _, _, _, _, haccept'⟩ := h.accepts_of_yields hfree hy'
  have hhalts : Halts g t c := halts_of_after haccept rfl
  have hhalts' : Halts g t c' := halts_of_after haccept' rfl
  rw [(hruns.unique hhalts hruns' hhalts').1]

/-- A text of terminals with two rightmost derivations from the start symbol makes a conflict. A
derivation is told by the numbers of its productions, so that a rule that is entered twice counts
as two. -/
theorem hasConflict_of_rightmost_ne {full : Bool} {text : String} {warnings : List Warning}
    {c : Compiled} (hc : compile full text = (warnings, .ok c)) {s : Symbol} {w : List Symbol}
    {ns ns' : List Nat} (hs : c.grammar.start = some s) (hw : ∀ t ∈ w, t ∈ c.grammar.terminals)
    (h : c.grammar.Rightmost ns [s] w) (h' : c.grammar.Rightmost ns' [s] w) (hne : ns ≠ ns') :
    c.table.hasConflict = true := by
  obtain ⟨a, htable⟩ := compile_ok hc
  have hgoal := (Augmented.ofGrammar_eq_ok_iff.mp htable.augmented).1
  obtain rfl := Option.some.inj (hs.symm.trans hgoal)
  by_contra hfree
  rw [Bool.not_eq_true] at hfree
  have heq := htable.eq_of_yields hfree (h.yields htable.consistent hw)
    (h'.yields htable.consistent hw)
  exact hne (List.reverse_injective heq)

/-- Sums without precedence, where a sum of three can be read in two ways. -/
theorem hasConflict_of_sums :
    ∃ warnings c, compile true "E -> E + E | a" = (warnings, .ok c) ∧
      c.grammar.start = some "E" ∧ (∀ t ∈ ["a", "+", "a", "+", "a"], t ∈ c.grammar.terminals) ∧
      c.grammar.Rightmost [0, 0, 1, 1, 1] ["E"] ["a", "+", "a", "+", "a"] ∧
      c.grammar.Rightmost [0, 1, 0, 1, 1] ["E"] ["a", "+", "a", "+", "a"] ∧
      c.table.hasConflict = true := by
  have hcompiled : (compile true "E -> E + E | a").2.toOption.map
      (fun c => (c.grammar.productions, c.grammar.start, c.grammar.terminals.keys)) =
      some ([⟨⟨"E", ["E", "+", "E"]⟩, 0⟩, ⟨⟨"E", ["a"]⟩, 1⟩], some "E", ["+", "a"]) := by
    decide +kernel
  obtain ⟨warnings, c, hc, hview⟩ := exists_of_compile _ hcompiled
  obtain ⟨hproductions, hview⟩ := Prod.mk.inj hview
  obtain ⟨hstart, hkeys⟩ := Prod.mk.inj hview
  have hsum : c.grammar.productions[0]? = some ⟨⟨"E", ["E", "+", "E"]⟩, 0⟩ := hproductions ▸ rfl
  have hleaf : c.grammar.productions[1]? = some ⟨⟨"E", ["a"]⟩, 1⟩ := hproductions ▸ rfl
  have hterminals : ∀ {l : List Symbol}, (∀ t ∈ l, t ∈ ["+", "a"]) →
      ∀ t ∈ l, t ∈ c.grammar.terminals :=
    fun hl t ht => Assoc.mem_def.mpr (hkeys ▸ hl t ht)
  have hright : c.grammar.Rightmost [0, 0, 1, 1, 1] ["E"] ["a", "+", "a", "+", "a"] :=
    .head (.replace [] hsum (hterminals (l := []) (by decide))) <|
    .head (.replace ["E", "+"] hsum (hterminals (l := []) (by decide))) <|
    .head (.replace ["E", "+", "E", "+"] hleaf (hterminals (l := []) (by decide))) <|
    .head (.replace ["E", "+"] hleaf (hterminals (l := ["+", "a"]) (by decide))) <|
    .head (.replace [] hleaf (hterminals (l := ["+", "a", "+", "a"]) (by decide))) <| .refl _
  have hleft : c.grammar.Rightmost [0, 1, 0, 1, 1] ["E"] ["a", "+", "a", "+", "a"] :=
    .head (.replace [] hsum (hterminals (l := []) (by decide))) <|
    .head (.replace ["E", "+"] hleaf (hterminals (l := []) (by decide))) <|
    .head (.replace [] hsum (hterminals (l := ["+", "a"]) (by decide))) <|
    .head (.replace ["E", "+"] hleaf (hterminals (l := ["+", "a"]) (by decide))) <|
    .head (.replace [] hleaf (hterminals (l := ["+", "a", "+", "a"]) (by decide))) <| .refl _
  have hw := hterminals (l := ["a", "+", "a", "+", "a"]) (by decide)
  exact ⟨warnings, c, hc, hstart, hw, hright, hleft,
    hasConflict_of_rightmost_ne hc hstart hw hright hleft (by decide)⟩

end ShiftReduce
