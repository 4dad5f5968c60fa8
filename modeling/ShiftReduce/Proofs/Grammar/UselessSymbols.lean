/-
Useless symbols.

A name from which no text of terminals is derived is of no use, and neither is one that stands in no
row derived from the start symbol. Both kinds are reported, each name once and in the order in which
names are first seen.

* `Grammar.namesInOrder`, `Grammar.keys_nonterminals_ofRules` — this order;
* `Grammar.ReportsNames` — lists of the names that have a property;
* `Grammar.DerivesText` — some text of terminals is derived from a symbol;
* `Grammar.IsClosed`, `Grammar.isClosed_of_leave` — names of which one is added as soon as a right
  side of it is done with; the rounds are left with such names;
* `Grammar.mem_of_yields` — these have every name that yields a text, by induction on the trees;
* `Grammar.derivesText_of_warnings` — what a text without warnings of useless names is like;
* `Grammar.endless_exact` — the names that are reported as endless;
* `Grammar.unreachable_exact` — the names that are reported as unreachable.
-/
import ShiftReduce.Proofs.Grammar.Indexes
import ShiftReduce.Proofs.Loop.Grammar

namespace ShiftReduce

/-- A new key comes last. -/
theorem Assoc.keys_alter_eq_extend {κ ν : Type} [DecidableEq κ] (m : Assoc κ ν) (k : κ)
    (f : Option ν → ν) : (m.alter k f).keys = extend m.keys [k] := by
  rw [keys_alter]
  rfl

namespace Grammar

variable {g : Grammar} {s n : Symbol} {xs ending names : List Symbol} {rs : List Rule}

/-! ### The order of names -/

/-- The non-terminals of rules in the order in which they are first seen. A rule's name is seen
before its right side. -/
def namesInOrder (rs : List Rule) : List Symbol :=
  extend [] ((rs.flatMap fun r => r.name :: r.rhs).filter Symbol.isNonterminal)

theorem nodup_namesInOrder (rs : List Rule) : (namesInOrder rs).Nodup :=
  nodup_extend List.nodup_nil _

theorem keys_nonterminals_noteUses (number : Nat) (syms : List Symbol) (g : Grammar) :
    (syms.foldl (noteUse number) g).nonterminals.keys =
      extend g.nonterminals.keys (syms.filter Symbol.isNonterminal) := by
  induction syms generalizing g with
  | nil => rfl
  | cons s syms ih =>
    rw [List.foldl_cons, ih, noteUse, List.filter_cons]
    by_cases hs : s.isNonterminal = true
    · rw [if_pos hs, if_pos hs, Assoc.append, Assoc.keys_alter_eq_extend, extend_extend,
        List.singleton_append]
    · rw [if_neg hs, if_neg hs]

/-- A production adds its name and then the non-terminals of its right side. -/
theorem keys_nonterminals_push (g : Grammar) {r : Rule} (hr : r.name.isNonterminal = true) :
    (g.push r).nonterminals.keys =
      extend g.nonterminals.keys ((r.name :: r.rhs).filter Symbol.isNonterminal) := by
  have hpush : (g.push r).nonterminals.keys = (r.rhs.foldl (noteUse g.nextNumber)
      { g with nonterminals := g.nonterminals.touch r.name }).nonterminals.keys := rfl
  rw [hpush, keys_nonterminals_noteUses, List.filter_cons_of_pos hr, Assoc.touch,
    Assoc.keys_alter_eq_extend, extend_extend, List.singleton_append]

theorem keys_nonterminals_ofRules (h : ∀ r ∈ rs, r.name.isNonterminal = true) :
    (ofRules rs).nonterminals.keys = namesInOrder rs := by
  induction rs using List.reverseRecOn with
  | nil => rfl
  | append_singleton rs r ih =>
    have hnames : (ofRules rs).nonterminals.keys = namesInOrder rs :=
      ih fun s hs => h s (List.mem_append_left _ hs)
    rw [ofRules_concat, keys_nonterminals_push _ (h r (by simp)), hnames, namesInOrder,
      extend_extend, ← List.filter_append, namesInOrder, List.flatMap_append,
      List.flatMap_singleton]

/-- A list of those non-terminals of rules that have a property, each of them once and in the order
in which they are first seen. -/
structure ReportsNames (rs : List Rule) (P : Symbol → Prop) (found : List Symbol) : Prop where
  nodup : found.Nodup
  sublist : found.Sublist (namesInOrder rs)
  mem_iff : ∀ n, n ∈ found ↔ n ∈ namesInOrder rs ∧ P n

theorem reportsNames_filter {P : Symbol → Prop} {p : Symbol → Bool}
    (h : ∀ n ∈ namesInOrder rs, p n = true ↔ P n) :
    ReportsNames rs P ((namesInOrder rs).filter p) where
  nodup := (nodup_namesInOrder rs).filter p
  sublist := List.filter_sublist
  mem_iff n := by
    rw [List.mem_filter]
    exact and_congr_right (h n)

/-! ### Names that are found to end -/

/-- Some text of terminals is derived from a symbol. It may be the empty one. -/
def DerivesText (g : Grammar) (s : Symbol) : Prop :=
  ∃ w, (∀ t ∈ w, t ∈ g.terminals) ∧ Derives g.rules [s] w

theorem productive_iff_derivesText : g.Productive s ↔ g.DerivesText s := by
  constructor
  · rintro ⟨_, w, h⟩
    exact ⟨w, h.mem_terminals, h.derives⟩
  · rintro ⟨w, hw, hd⟩
    obtain ⟨ns, hns⟩ := exists_yields_of_derives hd hw
    exact ⟨ns, w, hns⟩

/-- Names that hold the name of every production whose right side has nothing but terminals and
these names. -/
def IsClosed (g : Grammar) (names : List Symbol) : Prop :=
  ∀ p ∈ g.productions, (∀ s ∈ p.rhs, s ∈ g.terminals ∨ s ∈ names) → p.name ∈ names

theorem ends_eq_true (hg : g.Consistent) (hsub : ending ⊆ g.byName.keys)
    (hs : s ∈ g.terminals ∨ s ∈ ending) : g.ends ending s = .ok true := by
  unfold ends
  rcases hs with ht | hin
  · rw [if_neg (hg.not_mem_nonterminals ht), if_pos ht]
  · obtain ⟨p, hp, rfl⟩ := (hg.mem_byName_iff s).mp (hsub hin)
    rw [if_pos (hg.name_mem_nonterminals hp), decide_eq_true hin]

theorem allEnd_eq_true (hg : g.Consistent) (hsub : ending ⊆ g.byName.keys)
    (hxs : ∀ s ∈ xs, s ∈ g.terminals ∨ s ∈ ending) : g.allEnd ending xs = .ok true := by
  induction xs with
  | nil => rfl
  | cons s xs ih =>
    obtain ⟨hs, hrest⟩ := List.forall_mem_cons.mp hxs
    rw [allEnd, ends_eq_true hg hsub hs]
    exact ih hrest

theorem allEnd_of_anyEnds {ps : List Production} (h : g.anyEnds ending ps = .ok false) :
    ∀ p ∈ ps, g.allEnd ending p.rhs = .ok false := by
  induction ps with
  | nil => exact fun p hp => absurd hp List.not_mem_nil
  | cons p ps ih =>
    rw [anyEnds] at h
    obtain ⟨b, hb, h⟩ := bind_eq_ok_iff.mp h
    cases b with
    | true => cases h
    | false => exact List.forall_mem_cons.mpr ⟨hb, ih h⟩

/-- A look that adds nothing found every name there already, or all its right sides still open. -/
theorem settled_of_endingRound {entries : List (Symbol × List Production)} {reached : List Symbol}
    (h : g.endingRound entries ending = .ok reached) (hnodup : ending.Nodup)
    (hsame : reached.length = ending.length) :
    ∀ e ∈ entries, g.ends ending e.1 = .ok true ∨ g.anyEnds ending e.2 = .ok false := by
  induction entries with
  | nil => exact fun e he => absurd he List.not_mem_nil
  | cons e entries ih =>
    obtain ⟨name, ps⟩ := e
    rw [endingRound] at h
    obtain ⟨known, hknown, h⟩ := bind_eq_ok_iff.mp h
    cases known with
    | true => exact List.forall_mem_cons.mpr ⟨.inl hknown, ih h⟩
    | false =>
      obtain ⟨found, hfound, h⟩ := bind_eq_ok_iff.mp h
      cases found with
      | false => exact List.forall_mem_cons.mpr ⟨.inr hfound, ih h⟩
      | true =>
        -- One more name makes the list longer for good.
        have hlonger := (extends_of_endingRound h (List.nodup_append.mpr
          ⟨hnodup, List.nodup_singleton name, fun a ha b hb heq =>
            not_mem_of_ends hknown (List.mem_singleton.mp hb ▸ heq ▸ ha)⟩)).1
        rw [List.length_append, List.length_singleton] at hlonger
        omega

/-- The loop is left with names that are closed. -/
theorem isClosed_of_leave (hg : g.Consistent) (hnodup : ending.Nodup)
    (hsub : ending ⊆ g.byName.keys) (h : EndingPass g ending (.leave names)) :
    names = ending ∧ g.IsClosed names := by
  cases h with
  | none hround hsame =>
    refine ⟨rfl, fun p hp hrhs => ?_⟩
    obtain ⟨ps, hps⟩ := Assoc.exists_find? ((hg.mem_byName_iff p.name).mpr ⟨p, hp, rfl⟩)
    have hin : p ∈ ps := by
      have hof : g.productionsOf p.name = ps := by rw [productionsOf, hps, Option.getD_some]
      rw [← hof, hg.productionsOf_eq]
      exact List.mem_filter.mpr ⟨hp, decide_eq_true rfl⟩
    rcases settled_of_endingRound hround hnodup hsame _ (Assoc.find?_eq_some_iff.mp hps) with
      hends | hopen
    · unfold ends at hends
      rw [if_pos (hg.name_mem_nonterminals hp)] at hends
      exact of_decide_eq_true (Except.ok.inj hends)
    · cases (allEnd_of_anyEnds hopen p hin).symm.trans (allEnd_eq_true hg hsub hrhs)

/-- Closed names have every name that yields a text. -/
theorem mem_of_yields (hclosed : g.IsClosed names) {ns : List Nat} {w : List Symbol}
    (h : Yields g xs ns w) : ∀ s ∈ xs, s ∈ g.terminals ∨ s ∈ names := by
  induction h with
  | nil => exact fun s hs => absurd hs List.not_mem_nil
  | leaf ht _ ih => exact List.forall_mem_cons.mpr ⟨.inl ht, ih⟩
  | node hp _ _ ihrhs ih =>
    exact List.forall_mem_cons.mpr ⟨.inr (hclosed _ (List.mem_of_getElem? hp) ihrhs), ih⟩

/-- The names that are found to end are those that yield a text. -/
theorem exists_endless_eq (hg : g.Consistent) : ∃ names : List Symbol,
    g.endless =
        .ok (g.nonterminals.keys.filter fun n => decide (n ∉ names) && decide (n ∈ g.byName)) ∧
      ∀ n ∈ g.nonterminals, n ∈ names ↔ g.Productive n := by
  obtain ⟨names, hterminates, hendless⟩ := ending_terminates hg
  obtain ⟨_, _, hends⟩ := hterminates.ends
  refine ⟨names, hendless, fun n hn => ?_⟩
  have hkeeps : ∀ ending reached : List Symbol,
      (ending.Nodup ∧ ending ⊆ g.byName.keys ∧ ∀ n ∈ ending, g.Productive n) →
      EndingPass g ending (.again reached) →
      reached.Nodup ∧ reached ⊆ g.byName.keys ∧ ∀ n ∈ reached, g.Productive n := by
    rintro ending reached ⟨hnodup, hsub, hproductive⟩ hpass
    cases hpass with
    | found hround _ =>
      obtain ⟨_, hnodup', hsub'⟩ := extends_of_endingRound hround hnodup
      exact ⟨hnodup', List.Subset.trans hsub' (List.append_subset.mpr ⟨hsub, List.Subset.refl _⟩),
        productive_of_endingRound (mem_productions_of_mem_byName hg) hproductive hround⟩
  obtain ⟨ending, ⟨hnodup, hsub, hproductive⟩, hleave⟩ := hends.exists_leave hkeeps
    ⟨List.nodup_nil, List.nil_subset _, fun n hn => absurd hn List.not_mem_nil⟩
  obtain ⟨rfl, hclosed⟩ := isClosed_of_leave hg hnodup hsub hleave
  constructor
  · exact hproductive n
  · rintro ⟨_, _, hyields⟩
    refine (mem_of_yields hclosed hyields n (List.mem_singleton_self n)).resolve_left fun ht => ?_
    exact hg.not_mem_nonterminals ht hn

/-! ### Warnings -/

theorem undefined_mem_grammarWarnings (hg : g.Consistent) {found : List (Symbol × Production)}
    (hfound : g.undefinedSymbols = .ok found) {p : Production} (h : (s, p) ∈ found) :
    Warning.undefined s p ∈ (grammarWarnings g).1 := by
  obtain ⟨duplicates, hduplicates⟩ := duplicates_total hg
  have hsome : found.isEmpty = false := List.isEmpty_eq_false_iff.mpr (List.ne_nil_of_mem h)
  rw [grammarWarnings, hfound]
  dsimp only
  rw [hduplicates]
  dsimp only
  rw [hsome, if_neg Bool.false_ne_true]
  simp [h]

theorem endless_mem_grammarWarnings (hg : g.Consistent) (hdefined : g.undefinedSymbols = .ok [])
    {found : List Symbol} (hfound : g.endless = .ok found) (h : n ∈ found) :
    Warning.endless n ∈ (grammarWarnings g).1 := by
  obtain ⟨duplicates, hduplicates⟩ := duplicates_total hg
  rw [grammarWarnings, hdefined]
  dsimp only
  rw [hduplicates]
  dsimp only
  rw [List.isEmpty_nil, if_pos rfl, hfound]
  exact List.mem_append_right _ (List.mem_map_of_mem h)

/-- A compilation gives all warnings about its grammar. -/
theorem mem_warnings_of_mem_grammarWarnings {text : String}
    (hne : (parse text).1.productions ≠ []) {w : Warning}
    (hw : w ∈ (grammarWarnings (parse text).1).1) (full : Bool) : w ∈ (compile full text).1 := by
  obtain ⟨found, hfound⟩ := grammarWarnings_total (parse_consistent text)
  rw [hfound] at hw
  rw [compile]
  dsimp only
  rw [if_neg (by simpa using hne), hfound]
  dsimp only
  split <;> simp [hw]

/-- A text that is compiled without a warning of an undefined or an endless name has names only from
which texts are derived. -/
theorem derivesText_of_warnings {full : Bool} {text : String}
    (hdefined : ∀ s p, Warning.undefined s p ∉ (compile full text).1)
    (hends : ∀ n, Warning.endless n ∉ (compile full text).1) :
    ∀ n ∈ (parse text).1.nonterminals, (parse text).1.DerivesText n := by
  have hg := parse_consistent text
  intro n hn
  have hne : (parse text).1.productions ≠ [] := by
    obtain ⟨_, p, hp, _⟩ := hg.mem_nonterminals_iff.mp hn
    exact List.ne_nil_of_mem hp
  obtain ⟨undefined, hundefined⟩ := undefinedSymbols_total hg
  obtain rfl : undefined = [] := List.eq_nil_iff_forall_not_mem.mpr fun ⟨s, p⟩ h =>
    hdefined s p (mem_warnings_of_mem_grammarWarnings hne
      (undefined_mem_grammarWarnings hg hundefined h) full)
  obtain ⟨endless, hendless⟩ := endless_total hg
  obtain rfl : endless = [] := List.eq_nil_iff_forall_not_mem.mpr fun s h =>
    hends s (mem_warnings_of_mem_grammarWarnings hne
      (endless_mem_grammarWarnings hg hundefined hendless h) full)
  exact productive_iff_derivesText.mp (productive_of_mem_nonterminals hg hundefined hendless hn)

/-! ### What is reported -/

theorem keys_nonterminals_attemptAll (calls : List Rule) :
    (attemptAll calls).nonterminals.keys = namesInOrder (attemptAll calls).rules := by
  rw [attemptAll_eq, rules_ofRules]
  exact keys_nonterminals_ofRules fun r hr => (List.mem_filter.mp hr).2

/-- Reported as endless are the names that have a production and from which no text of terminals is
derived. From a name without productions nothing is derived but itself, so it is of no help to
others. If neither an undefined nor an endless name is reported for a text, every name of its
grammar has a text of terminals that is derived from it. -/
theorem endless_exact (calls : List Rule) (full : Bool) (text : String) :
    (∃ found, (attemptAll calls).endless = .ok found ∧
      ReportsNames (attemptAll calls).rules (fun n =>
        (∃ p ∈ (attemptAll calls).productions, p.name = n) ∧
          ¬(attemptAll calls).DerivesText n) found) ∧
    ((∀ s p, Warning.undefined s p ∉ (compile full text).1) →
      (∀ n, Warning.endless n ∉ (compile full text).1) →
      ∀ n ∈ (parse text).1.nonterminals, (parse text).1.DerivesText n) := by
  have hg := consistent_attemptAll calls
  obtain ⟨names, hendless, hnames⟩ := exists_endless_eq hg
  refine ⟨⟨_, hendless, ?_⟩, derivesText_of_warnings⟩
  rw [keys_nonterminals_attemptAll]
  refine reportsNames_filter fun n hn => ?_
  rw [← keys_nonterminals_attemptAll, ← Assoc.mem_def] at hn
  rw [Bool.and_eq_true, decide_eq_true_eq, decide_eq_true_eq, hnames n hn, hg.mem_byName_iff,
    productive_iff_derivesText, and_comm]

/-- Mutual recursion that no rule leads out of, a name that needs an undefined one, an empty right
side, and a call that is refused. -/
def recursiveRules : List Rule :=
  [⟨"S", ["A", "D"]⟩, ⟨"A", ["a", "B"]⟩, ⟨"D", []⟩, ⟨"B", ["A"]⟩, ⟨"b", ["E"]⟩, ⟨"C", ["U"]⟩,
    ⟨"C", ["D", "C"]⟩]

theorem endless_exact_recursiveRules :
    (attemptAll recursiveRules).endless = .ok ["S", "A", "B", "C"] ∧
      ReportsNames (attemptAll recursiveRules).rules (fun n =>
        (∃ p ∈ (attemptAll recursiveRules).productions, p.name = n) ∧
          ¬(attemptAll recursiveRules).DerivesText n) ["S", "A", "B", "C"] ∧
      (∀ s p, Warning.undefined s p ∉ (compile false "S -> a S | T T -> ε").1) ∧
      (∀ n, Warning.endless n ∉ (compile false "S -> a S | T T -> ε").1) ∧
      ∀ n ∈ (parse "S -> a S | T T -> ε").1.nonterminals,
        (parse "S -> a S | T T -> ε").1.DerivesText n := by
  have hnone : (compile false "S -> a S | T T -> ε").1 = [] :=
    List.isEmpty_iff.mp (by decide +kernel)
  have hdefined : ∀ s p, Warning.undefined s p ∉ (compile false "S -> a S | T T -> ε").1 :=
    fun _ _ => hnone ▸ List.not_mem_nil
  have hends : ∀ n, Warning.endless n ∉ (compile false "S -> a S | T T -> ε").1 :=
    fun _ => hnone ▸ List.not_mem_nil
  have hfound : (attemptAll recursiveRules).endless = .ok ["S", "A", "B", "C"] := by decide
  obtain ⟨⟨found, hendless, hreports⟩, htext⟩ :=
    endless_exact recursiveRules false "S -> a S | T T -> ε"
  obtain rfl := Except.ok.inj (hendless.symm.trans hfound)
  exact ⟨hfound, hreports, hdefined, hends, htext hdefined hends⟩

/-- Reported as unreachable are the names, with productions or without, that stand in no row derived
from the start symbol. -/
theorem unreachable_exact (calls : List Rule) (hne : (attemptAll calls).productions ≠ []) :
    ∃ s, (attemptAll calls).start = some s ∧
      ReportsNames (attemptAll calls).rules
        (fun n => ∀ row, Derives (attemptAll calls).rules [s] row → n ∉ row)
        (attemptAll calls).unreachable := by
  have hg := consistent_attemptAll calls
  obtain ⟨s, hs⟩ := hg.exists_start_of_ne_nil hne
  refine ⟨s, hs, ?_⟩
  have hfilter : (attemptAll calls).unreachable =
      (namesInOrder (attemptAll calls).rules).filter (· ∉ (attemptAll calls).reachable) := by
    rw [← keys_nonterminals_attemptAll]
    unfold unreachable
    rw [hs]
  rw [hfilter]
  refine reportsNames_filter fun n _ => ?_
  rw [decide_eq_true_eq, mem_reachable_iff hg hs]
  constructor
  · intro hnot row hd hn
    obtain ⟨left, right, rfl⟩ := List.append_of_mem hn
    exact hnot ⟨left, right, hd⟩
  · rintro hnot ⟨left, right, hd⟩
    exact hnot _ hd (by simp)

/-- Rules that use one another and are out of reach, with a name that has no production, and a cycle
through the start symbol. -/
def strayRules : List Rule :=
  [⟨"S", ["a", "A"]⟩, ⟨"B", ["U", "C"]⟩, ⟨"A", ["S", "V"]⟩, ⟨"b", ["E"]⟩, ⟨"C", ["A", "B"]⟩]

theorem unreachable_exact_strayRules :
    (attemptAll strayRules).productions ≠ [] ∧ (attemptAll strayRules).start = some "S" ∧
      (attemptAll strayRules).unreachable = ["B", "U", "C"] ∧
      ReportsNames (attemptAll strayRules).rules
        (fun n => ∀ row, Derives (attemptAll strayRules).rules ["S"] row → n ∉ row)
        ["B", "U", "C"] := by
  have hne : (attemptAll strayRules).productions ≠ [] := by decide
  have hfound : (attemptAll strayRules).unreachable = ["B", "U", "C"] := by decide
  obtain ⟨s, hs, hreports⟩ := unreachable_exact strayRules hne
  obtain rfl : "S" = s := Option.some.inj hs
  exact ⟨hne, hs, hfound, hfound ▸ hreports⟩

end Grammar

end ShiftReduce
