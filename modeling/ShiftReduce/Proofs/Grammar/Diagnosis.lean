/-
Diagnoses that do not fail.

What looks wrong with a grammar is looked up in the grammar itself: productions by the numbers that
their symbols have noted, and rules and classes of symbols that all productions have.

* `Grammar.Consistent.productionAt_number` — the production of a number that is noted;
* `Grammar.duplicates_eq` — the productions whose rule has another number than theirs;
* `Grammar.undefinedSymbols_total`, `Grammar.duplicates_total`, `Grammar.endless_total` — every
  check has a result;
* `grammarWarnings_total` — and so have all of them together.
-/
import ShiftReduce.Compiler
import ShiftReduce.Proofs.Grammar.Productive

namespace ShiftReduce

namespace Grammar

variable {g : Grammar} {s : Symbol}

theorem Consistent.productionAt_number (hg : g.Consistent) {p : Production}
    (hp : p ∈ g.productions) : g.productionAt p.number = .ok p := by
  obtain ⟨i, hi⟩ := List.getElem?_of_mem hp
  rw [hg.number_eq hi]
  exact productionAt_of_getElem? hi

theorem undefinedSymbols_total (hg : g.Consistent) : ∃ found, g.undefinedSymbols = .ok found := by
  refine exists_mapM fun e he => ?_
  obtain ⟨⟨s, uses⟩, hentry, hreported⟩ := List.mem_filterMap.mp he
  dsimp only at hreported
  split at hreported
  · cases hreported
  · obtain ⟨number, hnumber, rfl⟩ := Option.map_eq_some_iff.mp hreported
    -- The number comes from a production that uses the symbol.
    have huses := hg.find?_symbolsOf true s
    have hfind : (g.symbolsOf true).find? s = some uses := Assoc.find?_eq_some_iff.mpr hentry
    rw [hfind] at huses
    split at huses
    · obtain rfl := Option.some.inj huses
      obtain ⟨p, hp, hmem⟩ := List.mem_flatMap.mp (List.mem_of_head? hnumber)
      obtain rfl := (List.mem_replicate.mp hmem).2
      exact ⟨_, bind_eq_ok_iff.mpr ⟨p, hg.productionAt_number hp, rfl⟩⟩
    · cases huses

theorem repeatsAmong_eq (hg : g.Consistent) {ps : List Production} (h : ps ⊆ g.productions) :
    g.repeatsAmong ps = .ok (ps.filter fun p => g.ruleNumber? p.toRule ≠ some p.number) := by
  induction ps with
  | nil => rfl
  | cons p ps ih =>
    obtain ⟨hp, hps⟩ := List.cons_subset.mp h
    obtain ⟨number, hnumber⟩ := hg.exists_ruleNumber? hp
    have hlowest : g.lowestNumber p = .ok number := by rw [lowestNumber, hnumber]
    refine bind_eq_ok_iff.mpr ⟨number, hlowest, bind_eq_ok_iff.mpr ⟨_, ih hps, ?_⟩⟩
    rw [List.filter_cons, hnumber]
    by_cases hsame : number = p.number <;> simp [hsame] <;> rfl

theorem duplicates_eq (hg : g.Consistent) :
    g.duplicates = .ok (g.productions.filter fun p => g.ruleNumber? p.toRule ≠ some p.number) :=
  repeatsAmong_eq hg (List.Subset.refl _)

theorem duplicates_total (hg : g.Consistent) : ∃ found, g.duplicates = .ok found :=
  ⟨_, duplicates_eq hg⟩

/-! ### Endless -/

theorem ends_total (hg : g.Consistent) (ending : List Symbol) (hs : g.Occurs s) :
    ∃ b, g.ends ending s = .ok b := by
  unfold ends
  rcases hg.mem_terminals_or_mem_nonterminals hs with ht | hn
  · rw [if_neg (hg.not_mem_nonterminals ht), if_pos ht]
    exact ⟨true, rfl⟩
  · rw [if_pos hn]
    exact ⟨_, rfl⟩

theorem allEnd_total (hg : g.Consistent) (ending : List Symbol) {xs : List Symbol}
    (hxs : ∀ s ∈ xs, g.Occurs s) : ∃ b, g.allEnd ending xs = .ok b := by
  induction xs with
  | nil => exact ⟨true, rfl⟩
  | cons s xs ih =>
    obtain ⟨hs, hrest⟩ := List.forall_mem_cons.mp hxs
    obtain ⟨b, hb⟩ := ends_total hg ending hs
    rw [allEnd, hb]
    cases b with
    | false => exact ⟨false, rfl⟩
    | true => exact ih hrest

theorem anyEnds_total (hg : g.Consistent) (ending : List Symbol) {ps : List Production}
    (h : ps ⊆ g.productions) : ∃ b, g.anyEnds ending ps = .ok b := by
  induction ps with
  | nil => exact ⟨false, rfl⟩
  | cons p ps ih =>
    obtain ⟨hp, hps⟩ := List.cons_subset.mp h
    obtain ⟨b, hb⟩ := allEnd_total hg ending fun s hs => ⟨p, hp, .inr hs⟩
    rw [anyEnds, hb]
    cases b with
    | false => exact ih hps
    | true => exact ⟨true, rfl⟩

theorem endingRound_total (hg : g.Consistent) (ending : List Symbol)
    {entries : List (Symbol × List Production)} (h : entries ⊆ g.byName.entries) :
    ∃ reached, g.endingRound entries ending = .ok reached := by
  induction entries generalizing ending with
  | nil => exact ⟨ending, rfl⟩
  | cons e entries ih =>
    obtain ⟨he, hrest⟩ := List.cons_subset.mp h
    obtain ⟨p, hp, hname⟩ := (hg.mem_byName_iff e.1).mp (List.mem_map_of_mem he)
    obtain ⟨known, hknown⟩ := ends_total hg ending (s := e.1) ⟨p, hp, .inl hname.symm⟩
    obtain ⟨found, hfound⟩ := anyEnds_total hg ending fun q hq =>
      (mem_productions_of_mem_byName hg e he q hq).1
    obtain ⟨same, hsame⟩ := ih ending hrest
    obtain ⟨more, hmore⟩ := ih (ending ++ [e.1]) hrest
    cases known with
    | true => exact ⟨same, bind_eq_ok_iff.mpr ⟨true, hknown, hsame⟩⟩
    | false =>
      cases found with
      | true =>
        exact ⟨more, bind_eq_ok_iff.mpr ⟨false, hknown, bind_eq_ok_iff.mpr ⟨true, hfound, hmore⟩⟩⟩
      | false =>
        exact ⟨same, bind_eq_ok_iff.mpr ⟨false, hknown, bind_eq_ok_iff.mpr ⟨false, hfound, hsame⟩⟩⟩

theorem endingNames_total (hg : g.Consistent) (rounds : Nat) (ending : List Symbol) :
    ∃ reached, g.endingNames rounds ending = .ok reached := by
  induction rounds generalizing ending with
  | zero => exact ⟨ending, rfl⟩
  | succ rounds ih =>
    obtain ⟨reached, hround⟩ := endingRound_total hg ending (List.Subset.refl _)
    obtain ⟨names, hnames⟩ := ih reached
    rw [endingNames, hround]
    by_cases hsame : reached.length = ending.length
    · exact ⟨ending, if_pos hsame⟩
    · exact ⟨names, (if_neg hsame).trans hnames⟩

theorem endless_total (hg : g.Consistent) : ∃ found, g.endless = .ok found := by
  obtain ⟨names, hnames⟩ := endingNames_total hg _ []
  exact ⟨_, bind_eq_ok_iff.mpr ⟨names, hnames, rfl⟩⟩

end Grammar

/-- All checks of a grammar have a result. -/
theorem grammarWarnings_total {g : Grammar} (hg : g.Consistent) :
    ∃ found, grammarWarnings g = (found, .ok ()) := by
  obtain ⟨undefined, hundefined⟩ := Grammar.undefinedSymbols_total hg
  obtain ⟨duplicates, hduplicates⟩ := Grammar.duplicates_total hg
  obtain ⟨endless, hendless⟩ := Grammar.endless_total hg
  rw [grammarWarnings, hundefined]
  dsimp only
  rw [hduplicates]
  dsimp only
  split
  · rw [hendless]
    exact ⟨_, rfl⟩
  · exact ⟨_, rfl⟩

end ShiftReduce
