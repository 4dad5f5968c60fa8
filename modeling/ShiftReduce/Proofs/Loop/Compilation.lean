/-
The loops of a compilation end.

On the way from a text to its table there are six loops that nothing bounds from outside. Each has a
bound that comes from the grammar, and ends in what the compilation goes on with.

* `LoopsEnd` — the loops on the way from a grammar to its table, and where they end;
* `construct_loopsEnd` — they end for every grammar with productions;
* `compile_loopsEnd` — and so for every text.
-/
import ShiftReduce.Proofs.Compilation
import ShiftReduce.Proofs.Loop.Automaton
import ShiftReduce.Proofs.Loop.Grammar

namespace ShiftReduce

/-- The loops on the way from a grammar to its table end, each with what the checks report or the
table is built from. -/
structure LoopsEnd (g : Grammar) (full : Bool) (c : Compiled) : Prop where
  /-- The search for what can be reached, from the start symbol on. -/
  unreachable : ∃ s seen, g.start = some s ∧
    Terminates (Grammar.ExplorePass g) g.exploreSteps ([s], [s]) ([], seen) ∧
    g.unreachable = g.nonterminals.keys.filter (· ∉ seen)
  /-- The rounds that find names that end. -/
  endless : ∃ names, Terminates (Grammar.EndingPass g) g.byName.keys.length [] names ∧
    g.endless = .ok (g.nonterminals.keys.filter fun n => n ∉ names && n ∈ g.byName)
  first : Terminates (Inclusion.RoundPass c.grammar.firstInclusions)
    (g.symbols.length * (g.terminals.keys.length + 1)) c.grammar.initialFirst c.grammar.first
  follow : Terminates (Inclusion.RoundPass c.grammar.followInclusions)
    (g.nonterminals.keys.length * (c.grammar.first.size + 1)) c.grammar.initialFollow
    c.grammar.follow
  /-- The rounds of walks along the lists of the closure table. -/
  closures : Terminates ClosureTable.RoundPass
    (g.nonterminals.keys.length * c.automaton.augmented.size)
    (ClosureTable.initial c.grammar c.automaton.augmented) c.automaton.closures
  /-- The expansion of the states, with those that are found on the way. -/
  states : Terminates (Automaton.ExpandPass c.grammar)
    (Nat.pow 2 (Automaton.itemCount c.automaton.augmented))
    (0, Automaton.initial c.grammar c.automaton.augmented full)
    (c.automaton.states.length, c.automaton)

/-- FOLLOW sets that are there already have no part in the rules for them. -/
theorem Grammar.followInclusions_withFollow (g : Grammar) (follow : SymbolSets) :
    { g with follow := follow }.followInclusions = g.followInclusions := by
  have hside : ∀ name xs,
      { g with follow := follow }.followInclusionsIn name xs = g.followInclusionsIn name xs := by
    intro name xs
    induction xs with
    | nil => rfl
    | cons x xs ih => rw [followInclusionsIn, followInclusionsIn, ih]
  simp only [followInclusions, hside]

/-- What the structures of a grammar are made of. -/
theorem exists_of_construct {g : Grammar} (hg : g.Consistent) (hne : g.productions ≠ [])
    (hfirst : g.first = ∅) (hfollow : g.follow = ∅) {malformed : List Malformed} {full : Bool}
    {c : Compiled} (h : construct g malformed full = .ok c) :
    ∃ first follow a,
      Inclusion.saturate g.firstInclusions g.firstRounds g.initialFirst = (first, .ok ()) ∧
      Inclusion.saturate { g with first := first }.followInclusions
        { g with first := first }.followRounds g.initialFollow = (follow, .ok ()) ∧
      c.grammar = { g with first := first, follow := follow } ∧
      Augmented.ofGrammar g = .ok a ∧ Automaton.build c.grammar a full = .ok c.automaton := by
  obtain ⟨first, follow, hcomputed, hcomputed', hsaturate, hrounds⟩ :=
    Grammar.exists_sets hg hne hfirst hfollow
  have hg₁ := hg.withSets first g.follow
  have hkept := Grammar.computeFollow_of_followSolved (hg.withSets first follow)
    (Grammar.followSolved_of_saturate hg₁ hrounds) hne
  rw [construct, hcomputed] at h
  dsimp only at h
  rw [hcomputed'] at h
  obtain ⟨a, ha, h⟩ := bind_eq_ok_iff.mp h
  obtain ⟨m, hm, h⟩ := bind_eq_ok_iff.mp h
  rw [Table.build, hkept] at h
  obtain ⟨t, _, h⟩ := bind_eq_ok_iff.mp h
  obtain rfl := Except.ok.inj h
  exact ⟨first, follow, a, hsaturate, hrounds, rfl, ha, hm⟩

theorem construct_loopsEnd {g : Grammar} (hg : g.Consistent) (hne : g.productions ≠ [])
    (hfirst : g.first = ∅) (hfollow : g.follow = ∅) {malformed : List Malformed} {full : Bool}
    {c : Compiled} (h : construct g malformed full = .ok c) : LoopsEnd g full c := by
  obtain ⟨s, hs⟩ := hg.exists_start_of_ne_nil hne
  obtain ⟨first, follow, a, hsaturate, hrounds, hgrammar, ha, hbuild⟩ :=
    exists_of_construct hg hne hfirst hfollow h
  obtain ⟨g', m, t, malformed'⟩ := c
  dsimp only at hgrammar hbuild
  subst hgrammar
  have hg₁ := hg.withSets first g.follow
  have hg' := hg.withSets first follow
  have hsolved := Grammar.firstSolved_of_saturate hg hsaturate
  obtain ⟨m', hm', hbuilt⟩ := Automaton.build_ok hg' ha full
  obtain rfl := Except.ok.inj (hm'.symm.trans hbuild)
  have haugmented : m'.augmented = a := hbuilt.augmented_eq
  have hclosures : m'.closures = closureTable g a := hbuilt.closures_eq
  obtain ⟨seen, hexplore, hunreachable⟩ := Grammar.explore_terminates hg hs
  refine ⟨⟨s, seen, hs, hexplore, hunreachable⟩, Grammar.ending_terminates hg, ?_, ?_, ?_, ?_⟩
  · have hbound := g.firstRounds_suffice
    refine (Inclusion.rounds_terminate g.firstInclusions_drawsFrom
      (Grammar.firstInclusions_total hg) g.initialFirst_within hbound hsaturate).mono ?_
    rw [Grammar.firstRounds] at hbound
    omega
  · have hbound := Grammar.followRounds_suffice hg₁
    have hkeys : g.initialFollow.keys.length ≤ g.nonterminals.keys.length :=
      (g.initialFollow.nodup.subperm fun n hn => (Grammar.mem_initialFollow hg n).mp hn).length_le
    have hstock : { g with first := first }.followStock.length = first.size + 1 := by
      simp [Grammar.followStock, SymbolSets.size]
    have hterminates := Inclusion.rounds_terminate (Grammar.followInclusions_drawsFrom _)
      (Grammar.followInclusions_total hg₁ hsolved) (Grammar.initialFollow_within _) hbound hrounds
    rw [← Grammar.followInclusions_withFollow _ follow] at hterminates
    refine hterminates.mono (Nat.le_trans (Nat.sub_le ..) ?_)
    rw [hstock]
    exact Nat.mul_le_mul_right _ hkeys
  · rw [haugmented, hclosures]
    exact ClosureTable.rounds_terminate g a
  · rw [haugmented]
    exact Automaton.expand_terminates hg' ha hbuild

/-- What a text compiles to are the structures of its grammar. -/
theorem construct_of_compile {full : Bool} {text : String} {c : Compiled}
    (h : (compile full text).2 = .ok c) :
    construct (Grammar.parse text).1 (Grammar.parse text).2 full = .ok c := by
  rw [compile] at h
  dsimp only at h
  split at h
  · cases h
  · split at h
    · cases h
    · split at h
      · cases h
      · next hconstruct =>
        obtain rfl := Except.ok.inj h
        exact hconstruct

/-- For every text, a compilation is over before it comes to a loop, as there are no rules, or all
its loops end. -/
theorem compile_loopsEnd (full : Bool) (text : String) :
    (compile full text).2 = .error .noRules ∨
      ∃ c, (compile full text).2 = .ok c ∧ LoopsEnd (Grammar.parse text).1 full c := by
  by_cases hne : (Grammar.parse text).1.productions = []
  · exact .inl (compile_of_productions_eq_nil full hne)
  · obtain ⟨c, hcompile, _⟩ := exists_compile_of_productions_ne_nil full hne
    obtain ⟨hfirst, hfollow⟩ := Grammar.parse_unsolved text
    exact .inr ⟨c, hcompile, construct_loopsEnd (Grammar.parse_consistent text) hne hfirst hfollow
      (construct_of_compile hcompile)⟩

end ShiftReduce
