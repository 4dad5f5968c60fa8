/-
Symbols from which texts of terminals are derived.

Where no non-terminal is undefined and none is endless, every row of symbols yields some text.

* `Grammar.Productive` — symbols that yield a text;
* `Grammar.productive_of_mem_endingNames` — names that are found to end are productive: each round
  adds a name only if one of its right sides is productive already;
* `Grammar.exists_yields` — without undefined and endless non-terminals every row of symbols of the
  grammar yields a text.
-/
import ShiftReduce.Grammar.Diagnostics
import ShiftReduce.Proofs.Grammar.Yield
import ShiftReduce.Proofs.Growth
import ShiftReduce.Proofs.Outcome

namespace ShiftReduce.Grammar

/-- Symbols that yield a text of terminals. -/
def Productive (g : Grammar) (s : Symbol) : Prop := ∃ ns w, Yields g [s] ns w

variable {g : Grammar} {ending ending' xs : List Symbol} {ps : List Production}

theorem productive_of_mem_terminals {t : Symbol} (h : t ∈ g.terminals) : g.Productive t :=
  ⟨[], [t], .leaf h .nil⟩

theorem exists_yields_of_productive (h : ∀ s ∈ xs, g.Productive s) :
    ∃ ns w, Yields g xs ns w := by
  induction xs with
  | nil => exact ⟨[], [], .nil⟩
  | cons s xs ih =>
    obtain ⟨ns, w, hs⟩ := h s (List.mem_cons_self ..)
    obtain ⟨ms, u, hxs⟩ := ih fun x hx => h x (List.mem_cons_of_mem s hx)
    exact ⟨ns ++ ms, w ++ u, hs.append hxs⟩

theorem productive_name {p : Production} (hp : p ∈ g.productions)
    (h : ∀ s ∈ p.rhs, g.Productive s) : g.Productive p.name := by
  obtain ⟨n, hn⟩ := List.getElem?_of_mem hp
  obtain ⟨ns, w, hrhs⟩ := exists_yields_of_productive h
  exact ⟨_, _, .node hn hrhs .nil⟩

/-! ### Rounds -/

theorem productive_of_ends (hending : ∀ n ∈ ending, g.Productive n) {s : Symbol}
    (h : g.ends ending s = .ok true) : g.Productive s := by
  unfold ends at h
  split at h
  · exact hending s (of_decide_eq_true (Except.ok.inj h))
  · split at h
    · next ht => exact productive_of_mem_terminals ht
    · cases h

theorem productive_of_allEnd (hending : ∀ n ∈ ending, g.Productive n)
    (h : g.allEnd ending xs = .ok true) : ∀ s ∈ xs, g.Productive s := by
  induction xs with
  | nil => exact fun s hs => absurd hs List.not_mem_nil
  | cons x xs ih =>
    rw [allEnd] at h
    obtain ⟨b, hb, h⟩ := bind_eq_ok_iff.mp h
    cases b with
    | false => cases h
    | true =>
      intro s hs
      rcases List.mem_cons.mp hs with rfl | hs
      · exact productive_of_ends hending hb
      · exact ih h s hs

theorem exists_of_anyEnds (h : g.anyEnds ending ps = .ok true) :
    ∃ p ∈ ps, g.allEnd ending p.rhs = .ok true := by
  induction ps with
  | nil => cases h
  | cons p ps ih =>
    rw [anyEnds] at h
    obtain ⟨b, hb, h⟩ := bind_eq_ok_iff.mp h
    cases b with
    | true => exact ⟨p, List.mem_cons_self .., hb⟩
    | false =>
      obtain ⟨q, hq, hall⟩ := ih h
      exact ⟨q, List.mem_cons_of_mem p hq, hall⟩

/-- One round finds only productive names. -/
theorem productive_of_endingRound {entries : List (Symbol × List Production)}
    (hentries : ∀ e ∈ entries, ∀ p ∈ e.2, p ∈ g.productions ∧ p.name = e.1)
    (hending : ∀ n ∈ ending, g.Productive n) (h : g.endingRound entries ending = .ok ending') :
    ∀ n ∈ ending', g.Productive n := by
  induction entries generalizing ending with
  | nil =>
    obtain rfl := Except.ok.inj h
    exact hending
  | cons e entries ih =>
    obtain ⟨name, ps⟩ := e
    have hrest : ∀ e ∈ entries, ∀ p ∈ e.2, p ∈ g.productions ∧ p.name = e.1 := fun e he =>
      hentries e (List.mem_cons_of_mem _ he)
    rw [endingRound] at h
    obtain ⟨known, _, h⟩ := bind_eq_ok_iff.mp h
    cases known with
    | true => exact ih hrest hending h
    | false =>
      obtain ⟨found, hfound, h⟩ := bind_eq_ok_iff.mp h
      cases found with
      | false => exact ih hrest hending h
      | true =>
        -- The name is added, as all symbols of one of its right sides are known to end.
        refine ih hrest (fun n hn => ?_) h
        rcases List.mem_append.mp hn with hn | hn
        · exact hending n hn
        · obtain ⟨p, hp, hall⟩ := exists_of_anyEnds hfound
          obtain ⟨hin, hname⟩ := hentries (name, ps) (List.mem_cons_self ..) p hp
          obtain rfl := List.mem_singleton.mp hn
          have hproductive := productive_name hin (productive_of_allEnd hending hall)
          rwa [hname] at hproductive

/-- The productions that are kept for a name are productions of this name. -/
theorem mem_productions_of_mem_byName (hg : g.Consistent) :
    ∀ e ∈ g.byName.entries, ∀ p ∈ e.2, p ∈ g.productions ∧ p.name = e.1 := by
  rintro ⟨name, ps⟩ he p hp
  have hps : g.productionsOf name = ps := by
    rw [productionsOf, Assoc.find?_eq_some_iff.mpr he]
    rfl
  rw [hg.productionsOf_eq] at hps
  obtain ⟨hin, hname⟩ := List.mem_filter.mp (hps ▸ hp)
  exact ⟨hin, of_decide_eq_true hname⟩

theorem productive_of_mem_endingNames (hg : g.Consistent) {rounds : Nat}
    (hending : ∀ n ∈ ending, g.Productive n) (h : g.endingNames rounds ending = .ok ending') :
    ∀ n ∈ ending', g.Productive n := by
  induction rounds generalizing ending with
  | zero =>
    obtain rfl := Except.ok.inj h
    exact hending
  | succ rounds ih =>
    rw [endingNames] at h
    obtain ⟨reached, hround, h⟩ := bind_eq_ok_iff.mp h
    split at h
    · obtain rfl := Except.ok.inj h
      exact hending
    · exact ih (productive_of_endingRound (mem_productions_of_mem_byName hg) hending hround) h

/-! ### Grammars without undefined and endless non-terminals -/

/-- A non-terminal that has no production is used, so it is reported. -/
theorem mem_byName_of_undefinedSymbols (hg : g.Consistent) (h : g.undefinedSymbols = .ok [])
    {n : Symbol} (hn : n ∈ g.nonterminals) : n ∈ g.byName := by
  by_contra hundefined
  have hnone : g.undefinedUses = [] :=
    List.forall₂_nil_right_iff.mp (mapM_eq_ok_iff.mp h)
  obtain ⟨hupper, p, hp, hoccurs⟩ := hg.mem_nonterminals_iff.mp hn
  have hrhs : n ∈ p.rhs := by
    refine hoccurs.resolve_left ?_
    rintro rfl
    exact hundefined ((hg.mem_byName_iff p.name).mpr ⟨p, hp, rfl⟩)
  have huses : p.number ∈ g.usesOf n := by
    refine List.mem_flatMap.mpr ⟨p, hp, ?_⟩
    exact List.mem_replicate.mpr ⟨Nat.ne_of_gt (List.count_pos_iff.mpr hrhs), rfl⟩
  obtain ⟨number, rest, hlist⟩ := List.exists_cons_of_ne_nil (List.ne_nil_of_mem huses)
  have hfind : g.nonterminals.find? n = some (g.usesOf n) := by
    have hsymbols := hg.find?_symbolsOf true n
    rwa [if_pos ⟨hupper, p, hp, hoccurs⟩] at hsymbols
  have hreported : (n, number) ∈ g.undefinedUses := by
    refine List.mem_filterMap.mpr ⟨(n, g.usesOf n), Assoc.find?_eq_some_iff.mp hfind, ?_⟩
    dsimp only
    rw [if_neg hundefined, hlist]
    rfl
  rw [hnone] at hreported
  cases hreported

theorem productive_of_mem_nonterminals (hg : g.Consistent) (hdefined : g.undefinedSymbols = .ok [])
    (hends : g.endless = .ok []) {n : Symbol} (hn : n ∈ g.nonterminals) : g.Productive n := by
  obtain ⟨ending, hending, h⟩ := bind_eq_ok_iff.mp hends
  have hnone := List.filter_eq_nil_iff.mp (Except.ok.inj h) n hn
  have hbyName := mem_byName_of_undefinedSymbols hg hdefined hn
  have hin : n ∈ ending := by simpa [hbyName] using hnone
  exact productive_of_mem_endingNames hg (fun s hs => absurd hs List.not_mem_nil) hending n hin

/-- Without undefined and endless non-terminals every row of symbols of the grammar yields a
text. -/
theorem exists_yields (hg : g.Consistent) (hdefined : g.undefinedSymbols = .ok [])
    (hends : g.endless = .ok []) (hxs : ∀ s ∈ xs, g.Occurs s) : ∃ ns w, Yields g xs ns w := by
  refine exists_yields_of_productive fun s hs => ?_
  rcases hg.mem_terminals_or_mem_nonterminals (hxs s hs) with ht | hn
  · exact productive_of_mem_terminals ht
  · exact productive_of_mem_nonterminals hg hdefined hends hn

end ShiftReduce.Grammar
