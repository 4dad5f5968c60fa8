/-
What a grammar that is read from a text is like.

Names are non-terminals, and the symbols of right sides are words of the text other than the
reserved marks. Nothing else about a text matters to what is built from its grammar.

* `Grammar.Readable` — the symbols on right sides are words and no reserved marks;
* `Grammar.parse_induction` — what every readable production keeps holds of a grammar that is
  read;
* `Grammar.parse_consistent`, `Grammar.parse_readable` — the grammar of a text is consistent and
  readable;
* `Grammar.parse_eq` — it is the grammar of the rules that can be read; the others are malformed;
* `Grammar.productions_parse_eq_nil_iff` — it has productions unless all rules are malformed.
-/
import ShiftReduce.Grammar.RuleText
import ShiftReduce.Proofs.Grammar.Representation
import ShiftReduce.Proofs.Text.Words
import Mathlib.Data.List.Induction

namespace ShiftReduce

open Text

/-- Symbols that a text can hold on a right side. -/
structure Symbol.IsReadable (s : Symbol) : Prop where
  isWord : IsWord s
  ne_endMark : s ≠ endMark
  ne_empty : s ≠ empty

/-- Rules that a text can hold. -/
structure Rule.IsReadable (r : Rule) : Prop where
  name_isNonterminal : r.name.isNonterminal = true
  rhs_isReadable : ∀ s ∈ r.rhs, s.IsReadable

/-! ### Cutting -/

/-- Pieces of a text, the first of which is at its beginning. -/
structure Pieces (pieces : List (List Char)) (cs : List Char) : Prop where
  first : ∃ piece rest, pieces = piece :: rest ∧ piece <+: cs
  within : ∀ piece ∈ pieces, piece <:+: cs

namespace Pieces

variable {pieces : List (List Char)} {cs : List Char}

theorem nil : Pieces [[]] [] :=
  ⟨⟨[], [], rfl, List.prefix_refl []⟩, fun _ h => List.mem_singleton.mp h ▸ List.infix_refl []⟩

theorem ne_nil (h : Pieces pieces cs) : pieces ≠ [] := by
  obtain ⟨piece, rest, rfl, _⟩ := h.first
  exact List.cons_ne_nil piece rest

theorem consFirst (h : Pieces pieces cs) (c : Char) : Pieces (consFirst c pieces) (c :: cs) := by
  obtain ⟨⟨piece, rest, rfl, hfirst⟩, hall⟩ := h
  have hlonger : c :: piece <+: c :: cs := List.prefix_cons_inj c |>.mpr hfirst
  refine ⟨⟨c :: piece, rest, rfl, hlonger⟩, fun p hp => ?_⟩
  rcases List.mem_cons.mp hp with rfl | hp
  · exact hlonger.isInfix
  · exact (hall p (List.mem_cons_of_mem _ hp)).trans (List.suffix_cons c cs).isInfix

/-- Nothing of what comes before the pieces is in them. -/
theorem cut (h : Pieces pieces cs) (before : List Char) : Pieces ([] :: pieces) (before ++ cs) := by
  refine ⟨⟨[], pieces, rfl, List.nil_prefix⟩, fun p hp => ?_⟩
  rcases List.mem_cons.mp hp with rfl | hp
  · exact List.nil_infix
  · exact (h.within p hp).trans (List.suffix_append before cs).isInfix

theorem mem (h : Pieces pieces cs) {piece : List Char} (hpiece : piece ∈ pieces) {d : Char}
    (hd : d ∈ piece) : d ∈ cs := (h.within piece hpiece).subset hd

end Pieces

theorem pieces_cutRules (cs : List Char) : Pieces (cutRules cs) cs := by
  induction cs with
  | nil => exact .nil
  | cons c cs ih =>
    rw [cutRules]
    split
    · exact ih.cut [c]
    · exact ih.consFirst c

theorem pieces_cutArrows (cs : List Char) : Pieces (cutArrows cs) cs := by
  induction cs using cutArrows.induct with
  | case1 cs ih =>
    rw [cutArrows]
    exact ih.cut ['-', '>']
  | case2 c cs hc ih =>
    rw [cutArrows]
    · exact ih.consFirst c
    · exact hc
  | case3 => exact .nil

theorem pieces_cutBars (cs : List Char) : Pieces (cutBars cs) cs := by
  induction cs using cutBars.induct with
  | case1 cs ih =>
    rw [cutBars]
    exact ih.cut ['|']
  | case2 c cs hc ih =>
    rw [cutBars]
    · exact ih.consFirst c
    · exact hc
  | case3 => exact .nil

theorem trimEnd_isPrefix (cs : List Char) : trimEnd cs <+: cs := by
  obtain ⟨gap, _, hcs⟩ := exists_eq_trimEnd_append cs
  exact ⟨gap, hcs.symm⟩

theorem trim_isInfix (cs : List Char) : trim cs <:+: cs :=
  (trimEnd_isPrefix _).isInfix.trans (List.dropWhile_suffix _).isInfix

/-! ### Reading -/

/-- The symbols of an alternative are words if its only blanks are spaces. -/
theorem isWord_of_mem_readAlternative {cs : List Char} {s : Symbol}
    (hcs : ∀ c ∈ cs, c = ' ' ∨ isBlank c = false) (h : s ∈ readAlternative cs) :
    IsWord s ∧ s ≠ Symbol.empty := by
  rw [readAlternative, List.mem_filter] at h
  obtain ⟨hs, hempty⟩ := h
  rw [tokens, List.mem_map] at hs
  obtain ⟨run, hrun, rfl⟩ := hs
  refine ⟨⟨?_, ?_⟩, of_decide_eq_true hempty⟩
  · rw [String.toList_ofList]
    exact ne_nil_of_mem_segments hrun
  · intro c hc
    rw [String.toList_ofList] at hc
    have hflat := List.mem_flatten_of_mem hrun hc
    rw [flatten_segments, List.mem_filter] at hflat
    have hspace : c ≠ ' ' := by simpa using hflat.2
    rcases hcs c ((trim_isInfix cs).subset hflat.1) with h | h
    · exact absurd h hspace
    · exact h

/-- A rule text is read if it has one arrow, a non-terminal on its left and something on its right,
and no alternative holds the mark for the end of the input. -/
theorem readRule_eq_ok_iff {cs : List Char} {rs : List Rule} :
    readRule cs = .ok rs ↔ ∃ left right, cutArrows cs = [left, right] ∧
      Symbol.isNonterminal (String.ofList (trim left)) = true ∧ trim right ≠ [] ∧
      (∀ bar ∈ cutBars (trim right), Symbol.endMark ∉ readAlternative bar) ∧
      rs = (cutBars (trim right)).map fun bar =>
        ⟨String.ofList (trim left), readAlternative bar⟩ := by
  constructor
  · intro h
    unfold readRule at h
    split at h
    · next left right hcut =>
      -- Only what passes all tests is read.
      dsimp only at h
      split at h
      · cases h
      · split at h
        · cases h
        · next hright =>
          split at h
          · cases h
          · next hname =>
            split at h
            · cases h
            · next hmark =>
              obtain rfl := Except.ok.inj h
              refine ⟨left, right, hcut, by simpa using hname, mt List.isEmpty_iff.mpr hright,
                fun bar hbar hin => hmark ?_, List.map_map ..⟩
              exact List.any_eq_true.mpr
                ⟨_, List.mem_map_of_mem hbar, decide_eq_true hin⟩
    · cases h
    · cases h
    · cases h
  · rintro ⟨left, right, hcut, hname, hright, hmark, rfl⟩
    have hleft : (trim left).isEmpty = false := by
      cases hchars : trim left with
      | nil =>
        rw [hchars] at hname
        cases hname
      | cons c cs => rfl
    have hnone : ((cutBars (trim right)).map readAlternative).any (Symbol.endMark ∈ ·) = false := by
      rw [List.any_eq_false]
      intro syms hsyms
      obtain ⟨bar, hbar, rfl⟩ := List.mem_map.mp hsyms
      simpa using hmark bar hbar
    rw [readRule, hcut]
    dsimp only
    rw [hleft, List.isEmpty_eq_false_iff.mpr hright, hname, hnone, List.map_map]
    rfl

theorem isReadable_of_readRule {cs : List Char} {rs : List Rule}
    (hcs : ∀ c ∈ cs, c = ' ' ∨ isBlank c = false) (h : readRule cs = .ok rs) :
    ∀ r ∈ rs, r.IsReadable := by
  obtain ⟨left, right, hcut, hname, _, hmark, rfl⟩ := readRule_eq_ok_iff.mp h
  have hright : ∀ c ∈ trim right, c = ' ' ∨ isBlank c = false := by
    intro c hc
    refine hcs c ((pieces_cutArrows cs).mem ?_ ((trim_isInfix right).subset hc))
    rw [hcut]
    simp
  intro r hr
  obtain ⟨bar, hbar, rfl⟩ := List.mem_map.mp hr
  refine ⟨hname, fun s hs => ?_⟩
  have hword := isWord_of_mem_readAlternative
    (fun c hc => hright c ((pieces_cutBars _).mem hbar hc)) hs
  refine ⟨hword.1, ?_, hword.2⟩
  rintro rfl
  exact hmark bar hbar hs

theorem blank_of_mem_splitRules {text rule : String} (h : rule ∈ splitRules (normalize text)) :
    ∀ c ∈ rule.toList, c = ' ' ∨ isBlank c = false := by
  intro c hc
  unfold splitRules at h
  split at h
  · cases h
  · obtain ⟨run, hrun, rfl⟩ := List.mem_map.mp h
    rw [String.toList_ofList] at hc
    refine isBlank_of_mem_unwords (fun w hw => ?_) ((pieces_cutRules _).mem hrun hc)
    obtain ⟨cs, hcs, rfl⟩ := List.mem_map.mp hw
    rw [IsWord, String.toList_ofList]
    exact isWord_of_mem_words hcs

namespace Grammar

/-- What every readable production keeps holds of a grammar that is read. -/
theorem parse_induction {P : Grammar → Prop} (empty : P ∅)
    (push : ∀ g r, r.IsReadable → P g → P (g.push r)) (text : String) : P (parse text).1 := by
  have hfold : ∀ (rules : List String) (state : Grammar × List Malformed),
      (∀ rule ∈ rules, rule ∈ splitRules (normalize text)) → P state.1 →
      P (rules.foldl Grammar.read state).1 := by
    intro rules
    induction rules with
    | nil => exact fun _ _ h => h
    | cons rule rules ih =>
      intro state hmem hstate
      rw [List.foldl_cons]
      refine ih _ (fun r hr => hmem r (List.mem_cons_of_mem rule hr)) ?_
      unfold Grammar.read
      split
      · next rs hrs =>
        have hreadable := isReadable_of_readRule
          (blank_of_mem_splitRules (hmem rule (List.mem_cons_self ..))) hrs
        clear hrs
        induction rs using List.reverseRecOn with
        | nil => exact hstate
        | append_singleton rs r ihr =>
          rw [List.foldl_concat]
          exact push _ r (hreadable r (by simp)) (ihr fun s hs => hreadable s (by simp [hs]))
      · exact hstate
  exact hfold _ _ (fun _ h => h) empty

/-- The rules of a grammar are such as a text can hold. -/
def Readable (g : Grammar) : Prop := ∀ p ∈ g.productions, p.toRule.IsReadable

theorem parse_consistent (text : String) : (parse text).1.Consistent :=
  parse_induction .empty (fun _ _ hr h => h.push hr.name_isNonterminal) text

theorem parse_readable (text : String) : (parse text).1.Readable := by
  refine parse_induction (fun p hp => by cases hp) (fun g r hr h p hp => ?_) text
  rw [productions_push, List.mem_append, List.mem_singleton] at hp
  rcases hp with hp | rfl
  · exact h p hp
  · exact hr

theorem Readable.isReadable {g : Grammar} (h : g.Readable) (hg : g.Consistent) {t : Symbol}
    (ht : t ∈ g.terminals) : t.IsReadable := by
  obtain ⟨p, hp, hrhs⟩ := hg.exists_mem_rhs ht
  exact (h p hp).rhs_isReadable t hrhs

/-- Nothing is computed for the grammar of a text. -/
theorem parse_unsolved (text : String) :
    (parse text).1.first = ∅ ∧ (parse text).1.follow = ∅ := by
  refine parse_induction (P := fun g => g.first = ∅ ∧ g.follow = ∅) ⟨rfl, rfl⟩
    (fun g r _ h => ?_) text
  rw [congrArg first (push_eq g r), congrArg follow (push_eq g r)]
  exact h

/-! ### All rules of a text -/

/-- The rules that a rule text stands for; a malformed one stands for none. -/
def rulesIn (rule : String) : List Rule := (readRule rule.toList).toOption.getD []

/-- A rule text and why it is malformed, if it is. -/
def malformedIn? (rule : String) : Option Malformed :=
  match readRule rule.toList with
  | .ok _ => none
  | .error cause => some ⟨rule, cause⟩

theorem foldl_read (rules : List String) (g : Grammar) (malformed : List Malformed) :
    rules.foldl Grammar.read (g, malformed) =
      ((rules.flatMap rulesIn).foldl push g, malformed ++ rules.filterMap malformedIn?) := by
  induction rules generalizing g malformed with
  | nil =>
    rw [List.filterMap_nil, List.append_nil, List.flatMap_nil, List.foldl_nil, List.foldl_nil]
  | cons rule rules ih =>
    rw [List.foldl_cons, Grammar.read]
    cases h : readRule rule.toList with
    | ok rs =>
      have hin : rulesIn rule = rs := by rw [rulesIn, h]; rfl
      have hnone : malformedIn? rule = none := by rw [malformedIn?, h]
      rw [List.flatMap_cons, hin, List.foldl_append, List.filterMap_cons_none hnone]
      exact ih _ _
    | error cause =>
      have hin : rulesIn rule = [] := by rw [rulesIn, h]; rfl
      have hsome : malformedIn? rule = some ⟨rule, cause⟩ := by rw [malformedIn?, h]
      rw [List.flatMap_cons, hin, List.nil_append, List.filterMap_cons_some hsome]
      exact (ih _ _).trans (by rw [List.append_assoc, List.singleton_append])

/-- The grammar of a text is that of the rules that can be read, and the others are malformed. -/
theorem parse_eq (text : String) :
    parse text = (ofRules ((splitRules (normalize text)).flatMap rulesIn),
      (splitRules (normalize text)).filterMap malformedIn?) :=
  foldl_read _ ∅ []

theorem rules_foldl_push (rs : List Rule) (g : Grammar) :
    (rs.foldl push g).rules = g.rules ++ rs := by
  induction rs generalizing g with
  | nil => exact (List.append_nil _).symm
  | cons r rs ih => rw [List.foldl_cons, ih, rules_push, List.append_assoc, List.singleton_append]

theorem rules_ofRules (rs : List Rule) : (ofRules rs).rules = rs := rules_foldl_push rs ∅

theorem rules_parse (text : String) :
    (parse text).1.rules = (splitRules (normalize text)).flatMap rulesIn := by
  rw [parse_eq, rules_ofRules]

/-- Only a malformed rule text stands for no rule. -/
theorem rulesIn_eq_nil_iff {rule : String} :
    rulesIn rule = [] ↔ ∃ cause, readRule rule.toList = .error cause := by
  rw [rulesIn]
  cases h : readRule rule.toList with
  | error cause => exact ⟨fun _ => ⟨cause, rfl⟩, fun _ => rfl⟩
  | ok rs =>
    obtain ⟨_, right, _, _, _, _, rfl⟩ := readRule_eq_ok_iff.mp h
    have hne : cutBars (trim right) ≠ [] := (pieces_cutBars _).ne_nil
    constructor
    · intro hnil
      exact absurd (List.map_eq_nil_iff.mp hnil) hne
    · rintro ⟨_, hcause⟩
      cases hcause

/-- A text has productions unless all its rules are malformed. -/
theorem productions_parse_eq_nil_iff (text : String) : (parse text).1.productions = [] ↔
    ∀ rule ∈ splitRules (normalize text), ∃ cause, readRule rule.toList = .error cause := by
  rw [← List.map_eq_nil_iff (f := Production.toRule)]
  show (parse text).1.rules = [] ↔ _
  rw [rules_parse, List.flatMap_eq_nil_iff]
  exact forall₂_congr fun _ _ => rulesIn_eq_nil_iff

end Grammar

end ShiftReduce
