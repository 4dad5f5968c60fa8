/-
Rules that are written and read again.

A rule's text is read back as that rule, and rules one after another are read back as those rules
in their order. Every rule of a grammar that was read from a text is one that can be written, so
the grammar is read again from the texts of its rules.

* `cutArrows_append_arrow`, `arrowless_of_mem_cutArrows` — what is between arrows;
* `Symbol.isUniform_iff` — a symbol has one class if no two neighbours differ in theirs;
* `tokens_unwords` — symbols in a row are cut into the same symbols;
* `Rule.IsWellFormed.readRule_text` — a rule is read back from its text;
* `Grammar.parse_texts` — so are rules one after another;
* `Grammar.isWellFormed_of_parse` — rules that are read can be written;
* `Grammar.parse_inverse` — writing and reading are inverse.
-/
import ShiftReduce.Proofs.Grammar.Layout
import ShiftReduce.Proofs.Grammar.Reading

namespace ShiftReduce

open Text

/-! ### Texts between marks -/

theorem cutArrows_of_arrowless {cs : List Char} (h : Arrowless cs) : cutArrows cs = [cs] := by
  induction cs using cutArrows.induct with
  | case1 cs _ => exact absurd ⟨[], cs, rfl⟩ h
  | case2 c cs hc ih =>
    rw [cutArrows, ih (h.of_isInfix (List.suffix_cons c cs).isInfix)]
    · rfl
    · exact hc
  | case3 => rfl

/-- A text is cut at every arrow. -/
theorem cutArrows_append_arrow (cs rest : List Char) :
    cutArrows (cs ++ '-' :: '>' :: rest) = cutArrows cs ++ cutArrows rest := by
  induction cs using cutArrows.induct with
  | case1 cs ih =>
    rw [List.cons_append, List.cons_append, cutArrows, cutArrows, ih]
    rfl
  | case2 c cs hc ih =>
    obtain ⟨piece, pieces, hpieces, _⟩ := (pieces_cutArrows cs).first
    rw [List.cons_append, cutArrows, cutArrows, ih, hpieces]
    · rfl
    · exact hc
    · -- What follows the character is a part of the first text, or the dash of the arrow.
      intro rest' heq htail
      cases cs with
      | nil => cases htail
      | cons d ds =>
        obtain ⟨rfl, _⟩ := List.cons.inj htail
        exact hc ds heq rfl
  | case3 =>
    rw [List.nil_append, cutArrows]
    rfl

theorem cutBars_of_not_mem {cs : List Char} (h : '|' ∉ cs) : cutBars cs = [cs] := by
  induction cs using cutBars.induct with
  | case1 cs _ => exact absurd (List.mem_cons_self ..) h
  | case2 c cs hc ih =>
    rw [cutBars, ih fun hmem => h (List.mem_cons_of_mem c hmem)]
    · rfl
    · exact hc
  | case3 => rfl

theorem arrowless_of_mem_cutArrows {cs piece : List Char} (h : piece ∈ cutArrows cs) :
    Arrowless piece := by
  induction cs using cutArrows.induct generalizing piece with
  | case1 cs ih =>
    rw [cutArrows] at h
    rcases List.mem_cons.mp h with rfl | h
    · decide
    · exact ih h
  | case2 c cs hc ih =>
    rw [cutArrows] at h
    · obtain ⟨first, rest, hpieces, hfirst⟩ := (pieces_cutArrows cs).first
      rw [hpieces] at h ih
      rcases List.mem_cons.mp h with rfl | h
      · -- The first piece begins as the text does, so no tip follows a dash.
        have hchain := arrowless_iff.mp (ih (List.mem_cons_self ..))
        refine arrowless_iff.mpr (List.isChain_cons.mpr ⟨?_, hchain⟩)
        rintro d hd ⟨rfl, rfl⟩
        obtain ⟨ds, rfl⟩ := List.head?_eq_some_iff.mp hd
        obtain ⟨behind, rfl⟩ := hfirst
        exact hc _ rfl rfl
      · exact ih (List.mem_cons_of_mem _ h)
    · exact hc
  | case3 =>
    obtain rfl := List.mem_singleton.mp h
    decide

theorem bar_not_mem_of_mem_cutBars {cs piece : List Char} (h : piece ∈ cutBars cs) :
    '|' ∉ piece := by
  induction cs using cutBars.induct generalizing piece with
  | case1 cs ih =>
    rw [cutBars] at h
    rcases List.mem_cons.mp h with rfl | h
    · exact List.not_mem_nil
    · exact ih h
  | case2 c cs hc ih =>
    rw [cutBars] at h
    · obtain ⟨first, rest, hpieces, _⟩ := (pieces_cutBars cs).first
      rw [hpieces] at h ih
      rcases List.mem_cons.mp h with rfl | h
      · intro hmem
        rcases List.mem_cons.mp hmem with rfl | hmem
        · exact hc rfl
        · exact ih (List.mem_cons_self ..) hmem
      · exact ih (List.mem_cons_of_mem _ h)
    · exact hc
  | case3 =>
    obtain rfl := List.mem_singleton.mp h
    exact List.not_mem_nil

/-! ### Symbols -/

/-- A text has one class if no two neighbours differ in theirs. -/
theorem Symbol.isUniform_iff {s : Symbol} (hne : s.toList ≠ []) :
    s.IsUniform ↔ s.toList.IsChain fun c d => (c.isUpper == d.isUpper) = true := by
  have htrans : IsTrans Char fun c d => (c.isUpper == d.isUpper) = true :=
    ⟨fun c d e hcd hde => by simp_all⟩
  rw [List.isChain_iff_pairwise]
  constructor
  · intro h
    refine List.pairwise_of_forall_mem_list fun c hc d hd => ?_
    rcases h with h | h
    · obtain ⟨_, hupper⟩ := isNonterminal_iff.mp h
      rw [hupper c hc, hupper d hd]
      rfl
    · rw [h c hc, h d hd]
      rfl
  · intro h
    obtain ⟨c, cs, hcs⟩ := List.exists_cons_of_ne_nil hne
    rw [hcs] at h
    have hsame : ∀ d ∈ s.toList, c.isUpper = d.isUpper := by
      rw [hcs]
      rintro d hd
      rcases List.mem_cons.mp hd with rfl | hd
      · rfl
      · exact beq_iff_eq.mp (List.rel_of_pairwise_cons h hd)
    cases hclass : c.isUpper with
    | false => exact .inr fun d hd => (hsame d hd).symm.trans hclass
    | true =>
      exact .inl (isNonterminal_iff.mpr ⟨hne, fun d hd => (hsame d hd).symm.trans hclass⟩)

theorem Symbol.isUniform_empty : Symbol.IsUniform Symbol.empty := .inr (by decide)

/-- Symbols in a row are cut into the same symbols. -/
theorem tokens_unwords {ts : List Symbol}
    (h : ∀ t ∈ ts, t.toList ≠ [] ∧ ' ' ∉ t.toList ∧ t.IsUniform) :
    tokens (unwords ts).toList = ts := by
  have hsegments : segments (· = ' ') (fun c d => c.isUpper == d.isUpper) (unwords ts).toList =
      ts.map String.toList := by
    refine segments_unwords rfl fun t ht => ?_
    obtain ⟨hne, hspace, huniform⟩ := h t ht
    refine ⟨hne, fun c hc => decide_eq_false ?_, (Symbol.isUniform_iff hne).mp huniform⟩
    rintro rfl
    exact hspace hc
  rw [tokens, hsegments, List.map_map]
  simp

namespace Rule

variable {r : Rule}

theorem IsWellFormed.isUniform_rhsWords (h : r.IsWellFormed) :
    ∀ s ∈ r.rhsWords, Symbol.IsUniform s := by
  intro s hs
  rw [rhsWords] at hs
  split at hs
  · exact List.mem_singleton.mp hs ▸ Symbol.isUniform_empty
  · exact (h.rhs_isWellFormed s hs).isUniform

/-- The symbols of a right side are read back. -/
theorem IsWellFormed.readAlternative_rhsWords (h : r.IsWellFormed) :
    readAlternative (unwords r.rhsWords).toList = r.rhs := by
  have hplain := h.isPlain_rhsWords
  have htokens : tokens (unwords r.rhsWords).toList = r.rhsWords := by
    refine tokens_unwords fun w hw => ?_
    have hword := (hplain w hw).isWord
    refine ⟨hword.1, fun hspace => ?_, h.isUniform_rhsWords w hw⟩
    cases isBlank_space.symm.trans (hword.2 ' ' hspace)
  rw [readAlternative, trim_unwords fun w hw => (hplain w hw).isWord, htokens, rhsWords]
  split
  · next hrhs => exact (List.isEmpty_iff.mp hrhs).symm
  · exact List.filter_eq_self.mpr fun s hs => decide_eq_true (h.rhs_isWellFormed s hs).ne_empty

/-- A rule is read back from its text. -/
theorem IsWellFormed.readRule_text (h : r.IsWellFormed) : readRule r.text.toList = .ok [r] := by
  have hname : IsPlain r.name := isPlain_of_isNonterminal h.name_isNonterminal
  have hplain := h.isPlain_rhsWords
  have hwords : ∀ w ∈ r.rhsWords, IsWord w := fun w hw => (hplain w hw).isWord
  have hleft : trim (r.name.toList ++ [' ']) = r.name.toList := by
    have htrim := trim_unwords (List.forall_mem_singleton.mpr hname.isWord)
    rw [unwords_singleton] at htrim
    rw [trim_append_of_isBlank _ isBlank_space, htrim]
  have hright : trim (' ' :: (unwords r.rhsWords).toList) = (unwords r.rhsWords).toList := by
    rw [trim_cons_of_isBlank isBlank_space, trim_unwords hwords]
  have hbars : cutBars (unwords r.rhsWords).toList = [(unwords r.rhsWords).toList] := by
    refine cutBars_of_not_mem fun hbar => ?_
    rcases mem_unwords hbar with hspace | ⟨w, hw, hbar⟩
    · cases hspace
    · exact (hplain w hw).bar_not_mem hbar
  rw [readRule_eq_ok_iff]
  refine ⟨r.name.toList ++ [' '], ' ' :: (unwords r.rhsWords).toList, ?_, ?_, ?_, ?_, ?_⟩
  · have hend : Arrowless (' ' :: (unwords r.rhsWords).toList) :=
      arrowless_nil.append_space (arrowless_unwords fun w hw => (hplain w hw).arrowless)
    have hbegin : Arrowless (r.name.toList ++ ' ' :: []) :=
      hname.arrowless.append_space arrowless_nil
    rw [toList_text, List.append_cons, cutArrows_append_arrow, cutArrows_of_arrowless hbegin,
      cutArrows_of_arrowless hend]
    rfl
  · rw [hleft, String.ofList_toList]
    exact h.name_isNonterminal
  · rw [hright]
    exact toList_unwords_ne_nil r.rhsWords_ne_nil hwords
  · rw [hright, hbars, List.forall_mem_singleton, h.readAlternative_rhsWords]
    exact fun hmark => (h.rhs_isWellFormed _ hmark).ne_endMark rfl
  · rw [hright, hbars, hleft, String.ofList_toList, List.map_singleton, h.readAlternative_rhsWords]

end Rule

/-! ### Rules that are read -/

/-- Symbols of an alternative can be written if neither an arrow nor a bar is in it. -/
theorem isWellFormed_of_mem_readAlternative {cs : List Char} (hbar : '|' ∉ cs)
    (harrow : Arrowless cs) {s : Symbol} (hs : s ∈ readAlternative cs) (hread : s.IsReadable) :
    s.IsWellFormed := by
  rw [readAlternative, List.mem_filter, tokens, List.mem_map] at hs
  obtain ⟨⟨run, hrun, rfl⟩, _⟩ := hs
  have hchars : (String.ofList run).toList = run := String.toList_ofList
  have htrim := trim_isInfix cs
  obtain ⟨hbar, harrow⟩ := markless_of_mem_segments (fun hmem => hbar (htrim.subset hmem))
    (harrow.of_isInfix htrim) hrun
  rw [← hchars] at hbar harrow
  refine ⟨⟨hread.isWord, hbar, harrow⟩, ?_, hread.ne_empty, hread.ne_endMark⟩
  rw [Symbol.isUniform_iff hread.isWord.1, hchars]
  exact isChain_of_mem_segments ((isChain_true _).imp fun _ _ _ h => h) hrun

/-- Rules that are read can be written. -/
theorem isWellFormed_of_readRule {cs : List Char} {rs : List Rule}
    (hcs : ∀ c ∈ cs, c = ' ' ∨ isBlank c = false) (h : readRule cs = .ok rs) :
    ∀ r ∈ rs, r.IsWellFormed := by
  have hread := isReadable_of_readRule hcs h
  obtain ⟨left, right, hcut, hname, _, _, rfl⟩ := readRule_eq_ok_iff.mp h
  have hright : Arrowless right :=
    arrowless_of_mem_cutArrows (hcut ▸ by simp : right ∈ cutArrows cs)
  intro r hr
  have hr' := hread r hr
  obtain ⟨bar, hbar, rfl⟩ := List.mem_map.mp hr
  have harrow : Arrowless bar :=
    (hright.of_isInfix (trim_isInfix right)).of_isInfix ((pieces_cutBars _).within bar hbar)
  exact ⟨hname, fun s hs => isWellFormed_of_mem_readAlternative (bar_not_mem_of_mem_cutBars hbar)
    harrow hs (hr'.rhs_isReadable s hs)⟩

namespace Grammar

theorem rulesIn_text {r : Rule} (h : r.IsWellFormed) : rulesIn r.text = [r] := by
  rw [rulesIn, h.readRule_text]
  rfl

theorem malformedIn?_text {r : Rule} (h : r.IsWellFormed) : malformedIn? r.text = none := by
  rw [malformedIn?, h.readRule_text]

/-- Rules one after another are read back as they were. -/
theorem parse_texts {gap : String} (hgap : IsGap gap) {rs : List Rule}
    (h : ∀ r ∈ rs, r.IsWellFormed) :
    parse (gap.intercalate (rs.map Rule.text)) = (ofRules rs, []) := by
  have hrules : (rs.map Rule.text).flatMap rulesIn = rs := by
    rw [List.flatMap_map, List.flatMap_congr fun r hr => rulesIn_text (h r hr)]
    exact List.flatMap_singleton' rs
  have hmalformed : (rs.map Rule.text).filterMap malformedIn? = [] := by
    rw [List.filterMap_map, List.filterMap_eq_nil_iff]
    exact fun r hr => malformedIn?_text (h r hr)
  rw [parse_eq, splitRules_intercalate hgap h, hrules, hmalformed]

/-- Every rule of a grammar that is read can be written. -/
theorem isWellFormed_of_parse {text : String} {r : Rule} (h : r ∈ (parse text).1.rules) :
    r.IsWellFormed := by
  rw [rules_parse, List.mem_flatMap] at h
  obtain ⟨rule, hrule, hr⟩ := h
  rw [rulesIn] at hr
  cases hread : readRule rule.toList with
  | error cause =>
    rw [hread] at hr
    cases hr
  | ok rs =>
    rw [hread] at hr
    exact isWellFormed_of_readRule (blank_of_mem_splitRules hrule) hread r hr

/-- Rules that can be written are added one after another. -/
theorem addRules_eq_ok {rs : List Rule} (h : ∀ r ∈ rs, r.IsWellFormed) :
    addRules rs = .ok (ofRules rs) := addRules_eq_ofRules fun r hr => (h r hr).name_isNonterminal

/-- Writing and reading are inverse. Rules that can be written are read back from their texts,
with any blanks between them, as the grammar that they lead to when they are added, and nothing is
malformed. The rules of a text can all be written, so their texts are read back as its grammar. -/
theorem parse_inverse {gap : String} (hgap : IsGap gap) :
    (∀ rs : List Rule, (∀ r ∈ rs, r.IsWellFormed) → ∃ g, addRules rs = .ok g ∧
      parse (gap.intercalate (rs.map Rule.text)) = (g, []) ∧
      g.productions = rs.mapIdx fun number r => ⟨r, number⟩) ∧
    ∀ text, (∀ r ∈ (parse text).1.rules, r.IsWellFormed) ∧
      parse (gap.intercalate ((parse text).1.rules.map Rule.text)) = ((parse text).1, []) := by
  refine ⟨fun rs h => ⟨ofRules rs, addRules_eq_ok h, parse_texts hgap h, ?_⟩, fun text => ?_⟩
  · have hg : (ofRules rs).Consistent := consistent_of_addRules (addRules_eq_ok h)
    rw [hg.productions_eq, rules_ofRules]
  · have h : ∀ r ∈ (parse text).1.rules, r.IsWellFormed := fun r hr => isWellFormed_of_parse hr
    refine ⟨h, (parse_texts hgap h).trans ?_⟩
    rw [rules_parse, parse_eq]

/-- Rules with empty right sides, parts of marks as terminals and neighbours of one class. -/
def trickyRules : List Rule :=
  [⟨"S", ["A", "AB", "-", ">", "aε", "$$", "id"]⟩, ⟨"A", []⟩, ⟨"AB", ["A"]⟩, ⟨"S", ["A", "A"]⟩]

theorem parse_inverse_tricky :
    IsGap "\n\t" ∧ (∀ r ∈ trickyRules, r.IsWellFormed) ∧ ∃ g : Grammar, g.rules = trickyRules ∧
      parse "S -> A AB - > aε $$ id\n\tA -> ε\n\tAB -> A\n\tS -> A A" = (g, []) := by
  have hgap : IsGap "\n\t" := by decide
  have hrules : ∀ r ∈ trickyRules, r.IsWellFormed := by decide
  have htext : ("\n\t" : String).intercalate (trickyRules.map Rule.text) =
      "S -> A AB - > aε $$ id\n\tA -> ε\n\tAB -> A\n\tS -> A A" := by decide
  obtain ⟨g, _, hparse, hproductions⟩ := (parse_inverse hgap).1 trickyRules hrules
  refine ⟨hgap, hrules, g, ?_, htext ▸ hparse⟩
  rw [rules, hproductions]
  rfl

end Grammar

end ShiftReduce
