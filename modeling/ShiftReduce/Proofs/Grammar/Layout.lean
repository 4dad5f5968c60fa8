/-
Rules one after another in a text.

Whatever blanks stand between rules, the text's words are those of its rules in a row. The rules are
found in them although nothing marks where one ends: no other rule begins within a rule, and none
begins at its end with a part of what follows it.

* `layoutWords` — the words of a text, where every arrow and every bar stands apart;
* `layoutWords_intercalate`, `normalize_intercalate` — the words of texts one after another, and
  their normal form;
* `Arrowless`, `layoutWords_of_isPlain` — a word without marks stays as it is;
* `Rule.words`, `Rule.IsWellFormed.layoutWords_text` — the words of a rule;
* `beginsRule_iff`, `beginsRule_append_space` — where a rule begins;
* `cutRules_append_space`, `splitRules_unwords` — rules in a row are found as they were;
* `splitRules_intercalate` — so are rules that can be written, with any blanks between them.
-/
import ShiftReduce.Grammar.RuleText
import ShiftReduce.Proofs.Text.Words
import Mathlib.Data.List.TakeWhile
import Mathlib.Tactic.MkIffOfInductiveProp

namespace ShiftReduce

open Text

/-! ### Words of a text -/

/-- The words of a text, where every arrow and every bar stands apart. -/
def layoutWords (text : String) : List String :=
  (words (spreadMarks text.toList)).map String.ofList

theorem normalize_eq (text : String) : normalize text = unwords (layoutWords text) := rfl

/-- A mark goes over the end of a text only if it is an arrow whose tip stands behind. -/
theorem spreadMarks_append (cs : List Char) {rest : List Char} (hrest : rest.head? ≠ some '>') :
    spreadMarks (cs ++ rest) = spreadMarks cs ++ spreadMarks rest := by
  induction cs using spreadMarks.induct with
  | case1 cs ih =>
    rw [List.cons_append, List.cons_append, spreadMarks, spreadMarks, ih]
    rfl
  | case2 cs ih =>
    rw [List.cons_append, spreadMarks, spreadMarks, ih]
    rfl
  | case3 c cs hc hc' ih =>
    rw [List.cons_append, spreadMarks, spreadMarks, ih]
    · rfl
    · exact hc
    · exact hc'
    · -- What follows the character is a part of the first text, or begins the second.
      intro rest' heq htail
      cases cs with
      | nil => exact hrest (congrArg List.head? htail)
      | cons d cs =>
        obtain ⟨rfl, _⟩ := List.cons.inj htail
        exact hc cs heq rfl
    · exact hc'
  | case4 => rfl

/-- Marks do not go over a blank. -/
theorem spreadMarks_append_blank (cs : List Char) {c : Char} (hc : isBlank c = true)
    (rest : List Char) :
    spreadMarks (cs ++ c :: rest) = spreadMarks cs ++ c :: spreadMarks rest := by
  have hmark : ∀ d, isBlank d = false → c ≠ d := by
    rintro d hd rfl
    cases hc.symm.trans hd
  have htip : (c :: rest).head? ≠ some '>' := fun h => hmark '>' (by decide) (Option.some.inj h)
  rw [spreadMarks_append cs htip, spreadMarks]
  · exact fun _ heq => absurd heq (hmark '-' (by decide))
  · exact hmark '|' (by decide)

/-- The words of a text do not change with blanks before it. -/
theorem words_spreadMarks_gap {gap : List Char} (hgap : ∀ c ∈ gap, isBlank c = true)
    (cs : List Char) : words (spreadMarks (gap ++ cs)) = words (spreadMarks cs) := by
  induction gap with
  | nil => rfl
  | cons c gap ih =>
    obtain ⟨hc, hgap⟩ := List.forall_mem_cons.mp hgap
    have hspread := spreadMarks_append_blank [] hc (gap ++ cs)
    rw [List.cons_append, ← List.nil_append (c :: (gap ++ cs)), hspread]
    exact (segments_cons_of_sep hc).trans (ih hgap)

/-- No word goes over blanks. -/
theorem words_spreadMarks_append_gap (before : List Char) {gap : List Char} (hne : gap ≠ [])
    (hgap : ∀ c ∈ gap, isBlank c = true) (behind : List Char) :
    words (spreadMarks (before ++ (gap ++ behind))) =
      words (spreadMarks before) ++ words (spreadMarks behind) := by
  obtain ⟨c, gap, rfl⟩ := List.exists_cons_of_ne_nil hne
  obtain ⟨hc, hgap⟩ := List.forall_mem_cons.mp hgap
  rw [List.cons_append, spreadMarks_append_blank _ hc, words, segments_append_sep hc]
  exact congrArg _ (words_spreadMarks_gap hgap behind)

/-- Blanks between two texts keep their words apart. -/
theorem layoutWords_append_gap (text rest : String) {gap : String} (hne : gap ≠ "")
    (hgap : ∀ c ∈ gap.toList, isBlank c = true) :
    layoutWords (text ++ gap ++ rest) = layoutWords text ++ layoutWords rest := by
  have hchars : gap.toList ≠ [] := fun hnil => hne (String.toList_inj.mp hnil)
  rw [layoutWords, layoutWords, layoutWords, String.toList_append, String.toList_append,
    List.append_assoc, words_spreadMarks_append_gap _ hchars hgap, List.map_append]

/-! ### Words without marks -/

/-- Texts without an arrow. -/
def Arrowless (cs : List Char) : Prop := ¬['-', '>'] <:+: cs

instance (cs : List Char) : Decidable (Arrowless cs) :=
  inferInstanceAs (Decidable ¬['-', '>'] <:+: cs)

/-- Without an arrow no dash has a tip for its neighbour. -/
theorem arrowless_iff {cs : List Char} :
    Arrowless cs ↔ cs.IsChain fun c d => ¬(c = '-' ∧ d = '>') := by
  rw [List.isChain_iff_forall_rel_of_append_cons_cons]
  constructor
  · rintro h c d before behind rfl ⟨rfl, rfl⟩
    exact h ⟨before, behind, by simp⟩
  · rintro h ⟨before, behind, rfl⟩
    exact h (show _ = before ++ '-' :: '>' :: behind by simp) ⟨rfl, rfl⟩

theorem Arrowless.of_isInfix {cs ds : List Char} (h : Arrowless ds) (hcs : cs <:+: ds) :
    Arrowless cs := fun harrow => h (harrow.trans hcs)

theorem arrowless_nil : Arrowless [] := by decide

theorem Arrowless.append_space {cs ds : List Char} (hcs : Arrowless cs) (hds : Arrowless ds) :
    Arrowless (cs ++ ' ' :: ds) := by
  rw [arrowless_iff] at hcs hds ⊢
  refine List.isChain_append.mpr ⟨hcs, List.isChain_cons.mpr ⟨?_, hds⟩, ?_⟩
  · rintro d _ ⟨hspace, _⟩
    cases hspace
  · rintro c _ d hd ⟨_, rfl⟩
    cases hd

theorem arrowless_unwords {ws : List String} (h : ∀ w ∈ ws, Arrowless w.toList) :
    Arrowless (unwords ws).toList := by
  induction ws with
  | nil => exact arrowless_nil
  | cons w ws ih =>
    obtain ⟨hw, hws⟩ := List.forall_mem_cons.mp h
    by_cases hnil : ws = []
    · subst hnil
      rwa [unwords_singleton]
    · rw [toList_unwords_cons w hnil]
      exact hw.append_space (ih hws)

/-- The runs of a text without marks have none. -/
theorem markless_of_mem_segments {sep : Char → Bool} {joins : Char → Char → Bool}
    {cs run : List Char} (hbar : '|' ∉ cs) (harrow : Arrowless cs)
    (h : run ∈ segments sep joins cs) : '|' ∉ run ∧ Arrowless run := by
  constructor
  · intro hmem
    have hflat := List.mem_flatten_of_mem h hmem
    rw [flatten_segments, List.mem_filter] at hflat
    exact hbar hflat.1
  · rw [arrowless_iff] at harrow ⊢
    exact isChain_of_mem_segments (harrow.imp fun _ _ h _ => h) h

/-- Words without marks. -/
@[mk_iff]
structure IsPlain (s : String) : Prop where
  isWord : IsWord s
  bar_not_mem : '|' ∉ s.toList
  arrowless : Arrowless s.toList

instance (s : String) : Decidable (IsPlain s) := decidable_of_iff' _ (isPlain_iff s)

theorem spreadMarks_of_isPlain {cs : List Char} (hbar : '|' ∉ cs) (harrow : Arrowless cs) :
    spreadMarks cs = cs := by
  induction cs using spreadMarks.induct with
  | case1 cs _ => exact absurd ⟨[], cs, rfl⟩ harrow
  | case2 cs _ => exact absurd (List.mem_cons_self ..) hbar
  | case3 c cs hc hc' ih =>
    rw [spreadMarks, ih]
    · exact fun hmem => hbar (List.mem_cons_of_mem c hmem)
    · exact fun h => harrow (h.trans (List.suffix_cons c cs).isInfix)
    · exact hc
    · exact hc'
  | case4 => rfl

/-- A word without marks stays as it is. -/
theorem layoutWords_of_isPlain {s : String} (h : IsPlain s) : layoutWords s = [s] := by
  rw [layoutWords, spreadMarks_of_isPlain h.bar_not_mem h.arrowless, words,
    segments_run h.isWord.1 h.isWord.2 (isChain_true _)]
  exact congrArg (· :: []) String.ofList_toList

theorem layoutWords_arrow : layoutWords "->" = ["->"] := by decide

/-- What may stand between rules. -/
def IsGap (gap : String) : Prop := gap ≠ "" ∧ ∀ c ∈ gap.toList, isBlank c = true

instance (gap : String) : Decidable (IsGap gap) :=
  inferInstanceAs (Decidable (gap ≠ "" ∧ ∀ c ∈ gap.toList, isBlank c = true))

/-- The words of texts one after another are those of each text. -/
theorem layoutWords_intercalate {gap : String} (hgap : IsGap gap) (texts : List String) :
    layoutWords (gap.intercalate texts) = texts.flatMap layoutWords := by
  induction texts with
  | nil => rfl
  | cons text texts ih =>
    by_cases hnil : texts = []
    · subst hnil
      rw [String.intercalate_singleton, List.flatMap_singleton]
    · rw [String.intercalate_cons_of_ne_nil hnil, layoutWords_append_gap _ _ hgap.1 hgap.2, ih,
        List.flatMap_cons]

/-- The normal form of texts one after another is that of each text, in a row. -/
theorem normalize_intercalate {gap : String} (hgap : IsGap gap) {texts : List String}
    (h : ∀ text ∈ texts, layoutWords text ≠ []) :
    normalize (gap.intercalate texts) = unwords (texts.map normalize) := by
  rw [normalize_eq, layoutWords_intercalate hgap, ← unwords_map_unwords h]
  rfl

theorem isGap_space : IsGap " " := by decide

theorem normalize_unwords {texts : List String} (h : ∀ text ∈ texts, layoutWords text ≠ []) :
    normalize (unwords texts) = unwords (texts.map normalize) :=
  normalize_intercalate isGap_space h

/-- Words in a row that stay as they are. -/
theorem layoutWords_unwords {ws : List String} (h : ∀ w ∈ ws, layoutWords w = [w]) :
    layoutWords (unwords ws) = ws := by
  rw [unwords, layoutWords_intercalate isGap_space, List.flatMap_congr h]
  exact List.flatMap_singleton' ws

/-! ### Words of rules -/

theorem unwords_arrow (name : Symbol) {ws : List String} (h : ws ≠ []) :
    name ++ " -> " ++ unwords ws = unwords (name :: "->" :: ws) := by
  rw [unwords, unwords, String.intercalate_cons_of_ne_nil (List.cons_ne_nil _ _),
    String.intercalate_cons_of_ne_nil h]
  have hmark : " -> " = " " ++ "->" ++ " " := by decide
  rw [hmark]
  simp only [String.append_assoc]

/-- Symbols that are a non-terminal or hold none of the letters A to Z. -/
def Symbol.IsUniform (s : Symbol) : Prop :=
  s.isNonterminal = true ∨ ∀ c ∈ s.toList, c.isUpper = false

instance (s : Symbol) : Decidable s.IsUniform :=
  inferInstanceAs (Decidable (s.isNonterminal = true ∨ ∀ c ∈ s.toList, c.isUpper = false))

/-- Symbols that can be written on a right side: words without marks, of one class and other than
the reserved marks. -/
@[mk_iff]
structure Symbol.IsWellFormed (s : Symbol) : Prop extends IsPlain s where
  isUniform : s.IsUniform
  ne_empty : s ≠ Symbol.empty
  ne_endMark : s ≠ Symbol.endMark

instance (s : Symbol) : Decidable s.IsWellFormed :=
  decidable_of_iff' _ (Symbol.isWellFormed_iff s)

theorem isBlank_of_isUpper {c : Char} (h : c.isUpper = true) : isBlank c = false := by
  have hvalue : 'A'.val ≤ c.val ∧ c.val ≤ 'Z'.val := of_decide_eq_true h
  have hrange : 65 ≤ c.toNat ∧ c.toNat ≤ 90 :=
    ⟨UInt32.le_iff_toNat_le.mp hvalue.1, UInt32.le_iff_toNat_le.mp hvalue.2⟩
  simp only [isBlank, Bool.or_eq_false_iff, Bool.and_eq_false_iff, decide_eq_false_iff_not]
  omega

theorem Symbol.isNonterminal_iff {s : Symbol} :
    s.isNonterminal = true ↔ s.toList ≠ [] ∧ ∀ c ∈ s.toList, c.isUpper = true := by
  rw [isNonterminal, Bool.and_eq_true, List.all_eq_true, Bool.not_eq_true',
    List.isEmpty_eq_false_iff]

theorem isPlain_of_isNonterminal {s : Symbol} (h : s.isNonterminal = true) : IsPlain s := by
  obtain ⟨hne, hupper⟩ := Symbol.isNonterminal_iff.mp h
  have hblank : ∀ c ∈ s.toList, isBlank c = false := fun c hc => isBlank_of_isUpper (hupper c hc)
  refine ⟨⟨hne, hblank⟩, fun hbar => ?_, fun harrow => ?_⟩
  · cases hupper _ hbar
  · cases hupper '-' (harrow.subset (by simp))

theorem isPlain_empty : IsPlain Symbol.empty := ⟨by decide, by decide, by decide⟩

namespace Rule

/-- Rules that can be written. -/
@[mk_iff]
structure IsWellFormed (r : Rule) : Prop where
  name_isNonterminal : r.name.isNonterminal = true
  rhs_isWellFormed : ∀ s ∈ r.rhs, s.IsWellFormed

instance (r : Rule) : Decidable r.IsWellFormed := decidable_of_iff' _ (isWellFormed_iff r)

/-- The words of a right side, the mark of the empty string if there are no symbols. -/
def rhsWords (r : Rule) : List String := if r.rhs.isEmpty then [Symbol.empty] else r.rhs

/-- The words of a rule. -/
def words (r : Rule) : List String := r.name :: "->" :: r.rhsWords

variable {r : Rule}

theorem rhsText_eq (r : Rule) : r.rhsText = unwords r.rhsWords := by
  rw [rhsText, rhsWords]
  split <;> rfl

theorem rhsWords_ne_nil (r : Rule) : r.rhsWords ≠ [] := by
  rw [rhsWords]
  split
  · exact List.cons_ne_nil _ _
  · next hrhs => exact mt List.isEmpty_iff.mpr hrhs

theorem words_ne_nil (r : Rule) : r.words ≠ [] := List.cons_ne_nil _ _

theorem text_eq (r : Rule) : r.text = unwords r.words := by
  rw [text, rhsText_eq, words, unwords_arrow r.name r.rhsWords_ne_nil]

theorem toList_text (r : Rule) : r.text.toList =
    r.name.toList ++ ' ' :: '-' :: '>' :: ' ' :: (unwords r.rhsWords).toList := by
  have hmark : (" -> " : String).toList = [' ', '-', '>', ' '] := rfl
  rw [text, rhsText_eq, String.toList_append, String.toList_append, hmark]
  simp

theorem IsWellFormed.isPlain_rhsWords (h : r.IsWellFormed) : ∀ s ∈ r.rhsWords, IsPlain s := by
  intro s hs
  rw [rhsWords] at hs
  split at hs
  · exact List.mem_singleton.mp hs ▸ isPlain_empty
  · exact (h.rhs_isWellFormed s hs).toIsPlain

theorem IsWellFormed.layoutWords_text (h : r.IsWellFormed) : layoutWords r.text = r.words := by
  rw [text_eq]
  refine layoutWords_unwords fun w hw => ?_
  rcases List.mem_cons.mp hw with rfl | hw
  · exact layoutWords_of_isPlain (isPlain_of_isNonterminal h.name_isNonterminal)
  · rcases List.mem_cons.mp hw with rfl | hw
    · exact layoutWords_arrow
    · exact layoutWords_of_isPlain (h.isPlain_rhsWords w hw)

theorem IsWellFormed.normalize_text (h : r.IsWellFormed) : normalize r.text = r.text := by
  rw [normalize_eq, h.layoutWords_text, text_eq]

end Rule

/-! ### Where rules begin -/

/-- A rule begins with letters A to Z, a space and an arrow. -/
theorem beginsRule_iff {cs : List Char} : beginsRule cs = true ↔ ∃ name rest,
    name ≠ [] ∧ (∀ c ∈ name, c.isUpper = true) ∧ cs = name ++ ' ' :: '-' :: '>' :: rest := by
  constructor
  · intro h
    rw [beginsRule, Bool.and_eq_true] at h
    obtain ⟨hname, harrow⟩ := h
    obtain ⟨rest, hrest⟩ := List.isPrefixOf_iff_prefix.mp harrow
    refine ⟨cs.takeWhile Char.isUpper, rest, by simpa using hname,
      fun c hc => List.mem_takeWhile_imp hc, ?_⟩
    have htext := List.takeWhile_append_dropWhile (p := Char.isUpper) (l := cs)
    rw [← hrest] at htext
    exact htext.symm
  · rintro ⟨name, rest, hne, hupper, rfl⟩
    rw [beginsRule, List.takeWhile_append_of_pos hupper, List.dropWhile_append_of_pos hupper]
    simp [hne]

theorem beginsRule_of_prefix {cs ds : List Char} (h : cs <+: ds) (hcs : beginsRule cs = true) :
    beginsRule ds = true := by
  obtain ⟨name, rest, hne, hupper, rfl⟩ := beginsRule_iff.mp hcs
  obtain ⟨behind, rfl⟩ := h
  exact beginsRule_iff.mpr ⟨name, rest ++ behind, hne, hupper, by simp⟩

theorem beginsRule_unwords {name : Symbol} (h : name.isNonterminal = true) (ws : List String) :
    beginsRule (unwords (name :: "->" :: ws)).toList = true := by
  obtain ⟨hne, hupper⟩ := Symbol.isNonterminal_iff.mp h
  rw [toList_unwords, List.flatMap_cons]
  exact beginsRule_iff.mpr ⟨name.toList, _, hne, hupper, rfl⟩

/-- A rule that follows a text behind a space is not what makes the text begin with a rule. -/
theorem beginsRule_append_space (cs : List Char) {rest : List Char}
    (hrest : beginsRule rest = true) : beginsRule (cs ++ ' ' :: rest) = beginsRule cs := by
  rw [Bool.eq_iff_iff]
  refine ⟨fun h => ?_, beginsRule_of_prefix (List.prefix_append ..)⟩
  obtain ⟨name, behind, hne, hupper, htext⟩ := beginsRule_iff.mp h
  rcases append_eq_append_cons_cases htext with ⟨mid, rfl, hbehind⟩ | ⟨mid, hmid, hname⟩
  · -- The arrow is in the text, as there is no space in it.
    rcases mid with _ | ⟨c, _ | ⟨d, mid⟩⟩
    · cases hbehind
    · cases hbehind
    · obtain ⟨rfl, htip⟩ := List.cons.inj hbehind
      obtain ⟨rfl, _⟩ := List.cons.inj htip
      exact beginsRule_iff.mpr ⟨name, mid, hne, hupper, rfl⟩
  · cases mid with
    | nil =>
      -- The rule that follows would begin with the arrow.
      obtain ⟨_, rfl⟩ := List.cons.inj hmid
      cases hrest
    | cons c mid =>
      obtain ⟨rfl, _⟩ := List.cons.inj hmid
      cases hupper ' ' (by simp [hname])

/-! ### Cutting between rules -/

theorem cutRules_ne_nil (cs : List Char) : cutRules cs ≠ [] := by
  cases cs with
  | nil => exact List.cons_ne_nil _ _
  | cons c cs =>
    rw [cutRules, consFirst.eq_def]
    split
    · exact List.cons_ne_nil _ _
    · split <;> exact List.cons_ne_nil _ _

/-- A text is in one piece if no rule begins behind a space in it. -/
theorem cutRules_cons_eq_self_iff {c : Char} {cs : List Char} : cutRules (c :: cs) = [c :: cs] ↔
    (c = ' ' && beginsRule cs) = false ∧ cutRules cs = [cs] := by
  obtain ⟨piece, pieces, hpieces⟩ := List.exists_cons_of_ne_nil (cutRules_ne_nil cs)
  rw [cutRules, hpieces]
  cases c = ' ' && beginsRule cs <;> simp [consFirst]

/-- No text is cut in a word. -/
theorem cutRules_append_word {w rest run : List Char} {runs : List (List Char)}
    (hw : ∀ c ∈ w, isBlank c = false) (hrest : cutRules rest = run :: runs) :
    cutRules (w ++ rest) = (w ++ run) :: runs := by
  induction w with
  | nil => exact hrest
  | cons c w ih =>
    have hc : c ≠ ' ' := by
      rintro rfl
      cases isBlank_space.symm.trans (hw ' ' (List.mem_cons_self ..))
    rw [List.cons_append, cutRules, ih fun d hd => hw d (List.mem_cons_of_mem c hd)]
    simp [hc, consFirst]

theorem cutRules_of_arrowless {cs : List Char} (h : Arrowless cs) : cutRules cs = [cs] := by
  induction cs with
  | nil => rfl
  | cons c cs ih =>
    have hcs := h.of_isInfix (List.suffix_cons c cs).isInfix
    refine cutRules_cons_eq_self_iff.mpr ⟨?_, ih hcs⟩
    rw [Bool.and_eq_false_iff, Bool.eq_false_iff (b := beginsRule cs)]
    refine .inr fun hbegins => ?_
    obtain ⟨name, rest, _, _, rfl⟩ := beginsRule_iff.mp hbegins
    exact hcs ⟨name ++ [' '], rest, by simp⟩

/-- A text in one piece stays one before a space and a rule. -/
theorem cutRules_append_space {cs rest : List Char} (hcs : cutRules cs = [cs])
    (hrest : beginsRule rest = true) : cutRules (cs ++ ' ' :: rest) = cs :: cutRules rest := by
  induction cs with
  | nil =>
    rw [List.nil_append, cutRules, hrest]
    rfl
  | cons c cs ih =>
    obtain ⟨hc, hcs⟩ := cutRules_cons_eq_self_iff.mp hcs
    rw [List.cons_append, cutRules, beginsRule_append_space cs hrest, hc, ih hcs]
    rfl

/-- Rules in a row begin with the first of them. -/
theorem beginsRule_unwords_cons {r : String} (h : beginsRule r.toList = true) (rs : List String) :
    beginsRule (unwords (r :: rs)).toList = true := by
  rw [toList_unwords]
  exact beginsRule_of_prefix (List.prefix_append ..) h

/-- Texts in a row, each of them in one piece, are cut apart if they begin with rules. -/
theorem cutRules_unwords {rs : List String} (hne : rs ≠ [])
    (hwhole : ∀ r ∈ rs, cutRules r.toList = [r.toList])
    (hbegins : ∀ r ∈ rs, beginsRule r.toList = true) :
    cutRules (unwords rs).toList = rs.map String.toList := by
  induction rs with
  | nil => exact absurd rfl hne
  | cons r rs ih =>
    obtain ⟨hr, hwhole⟩ := List.forall_mem_cons.mp hwhole
    obtain ⟨_, hbegins⟩ := List.forall_mem_cons.mp hbegins
    cases rs with
    | nil =>
      rw [unwords_singleton, hr]
      rfl
    | cons s rs =>
      have hnext := beginsRule_unwords_cons (hbegins s (List.mem_cons_self ..)) rs
      have hne : s :: rs ≠ [] := List.cons_ne_nil _ _
      rw [toList_unwords_cons r hne, cutRules_append_space hr hnext, ih hne hwhole hbegins]
      rfl

/-- Rules in a row are found as they were. -/
theorem splitRules_unwords {rs : List String} (hwhole : ∀ r ∈ rs, cutRules r.toList = [r.toList])
    (hbegins : ∀ r ∈ rs, beginsRule r.toList = true) : splitRules (unwords rs) = rs := by
  cases rs with
  | nil => rfl
  | cons r rs =>
    have hne : unwords (r :: rs) ≠ "" := by
      intro hempty
      have hfirst := beginsRule_unwords_cons (hbegins r (List.mem_cons_self ..)) rs
      rw [hempty] at hfirst
      cases hfirst
    rw [splitRules, if_neg (mt String.isEmpty_iff.mp hne),
      cutRules_unwords (List.cons_ne_nil _ _) hwhole hbegins, List.map_map]
    simp

namespace Rule

variable {r : Rule}

theorem IsWellFormed.beginsRule_text (h : r.IsWellFormed) : beginsRule r.text.toList = true := by
  rw [text_eq]
  exact beginsRule_unwords h.name_isNonterminal _

/-- In the text of one rule no other begins. -/
theorem IsWellFormed.cutRules_text (h : r.IsWellFormed) :
    cutRules r.text.toList = [r.text.toList] := by
  have hrhs : Arrowless (' ' :: (unwords r.rhsWords).toList) :=
    arrowless_nil.append_space (arrowless_unwords fun w hw => (h.isPlain_rhsWords w hw).arrowless)
  have harrow : cutRules ('-' :: '>' :: ' ' :: (unwords r.rhsWords).toList) =
      ['-' :: '>' :: ' ' :: (unwords r.rhsWords).toList] :=
    cutRules_append_word (w := ['-', '>']) (by decide) (cutRules_of_arrowless hrhs)
  rw [toList_text]
  refine cutRules_append_word (isPlain_of_isNonterminal h.name_isNonterminal).isWord.2 ?_
  exact cutRules_cons_eq_self_iff.mpr ⟨rfl, harrow⟩

end Rule

/-- Rules one after another are found as they were. -/
theorem splitRules_intercalate {gap : String} (hgap : IsGap gap) {rs : List Rule}
    (h : ∀ r ∈ rs, r.IsWellFormed) :
    splitRules (normalize (gap.intercalate (rs.map Rule.text))) = rs.map Rule.text := by
  have hlayout : (rs.map Rule.text).map normalize = rs.map Rule.text := by
    rw [List.map_map]
    exact List.map_congr_left fun r hr => (h r hr).normalize_text
  have hwords : ∀ text ∈ rs.map Rule.text, layoutWords text ≠ [] := by
    rw [List.forall_mem_map]
    exact fun r hr => (h r hr).layoutWords_text ▸ r.words_ne_nil
  rw [normalize_intercalate hgap hwords, hlayout]
  apply splitRules_unwords <;> intro text htext <;> obtain ⟨r, hr, rfl⟩ := List.mem_map.mp htext
  · exact (h r hr).cutRules_text
  · exact (h r hr).beginsRule_text

end ShiftReduce
