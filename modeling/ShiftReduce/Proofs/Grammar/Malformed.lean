/-
Malformed rules leave nothing behind.

A text is cut into rules before any of them is read, and a rule that cannot be read is left out as a
whole. The other rules, in a row, are cut as they were, as each of them begins with a name and an
arrow. So they are read as the same grammar, and none of them is malformed.

* `arrowCount`, `IsIllFormed` — what can be wrong with a rule;
* `not_isIllFormed_iff` — the rules with which nothing is wrong are those that can be read;
* `exists_rows`, `unwords_splitRules` — the rules of a text are its words in rows;
* `beginsRule_of_readRule` — a rule that can be read begins with its name and its arrow;
* `splitRules_wellFormedRules` — the rules that can be read are found again without the others;
* `Grammar.parse_skips` — so malformed rules change nothing.
-/
import ShiftReduce.Proofs.Grammar.NormalForm
import ShiftReduce.Proofs.Grammar.Printing

namespace ShiftReduce

open Text

variable {cs left right : List Char} {rule : String} {rs : List Rule}

/-! ### What is wrong with a rule -/

/-- In how many places of a text an arrow stands. -/
def arrowCount (cs : List Char) : ℕ := cs.tails.countP (['-', '>'].isPrefixOf ·)

/-- Rule texts that are malformed. -/
inductive IsIllFormed (cs : List Char) : Prop
  | arrows : arrowCount cs ≠ 1 → IsIllFormed cs
  | noName (left right : List Char) : cs = left ++ '-' :: '>' :: right → trim left = [] →
      IsIllFormed cs
  | badName (left right : List Char) (c : Char) : cs = left ++ '-' :: '>' :: right →
      c ∈ trim left → c.isUpper = false → IsIllFormed cs
  | noRightSide (left right : List Char) : cs = left ++ '-' :: '>' :: right → trim right = [] →
      IsIllFormed cs
  | mark (left right alternative : List Char) : cs = left ++ '-' :: '>' :: right →
      alternative ∈ cutBars (trim right) → Symbol.endMark ∈ tokens (trim alternative) →
      IsIllFormed cs

/-- A text is cut into one piece more than it has arrows. -/
theorem length_cutArrows (cs : List Char) : (cutArrows cs).length = arrowCount cs + 1 := by
  induction cs using cutArrows.induct with
  | case1 cs ih =>
    rw [cutArrows, List.length_cons, ih]
    simp [arrowCount]
  | case2 c cs hc ih =>
    obtain ⟨piece, pieces, hpieces, _⟩ := (pieces_cutArrows cs).first
    have hnone : ['-', '>'].isPrefixOf (c :: cs) = false := by
      rw [Bool.eq_false_iff, ne_eq, List.isPrefixOf_iff_prefix]
      rintro ⟨rest, hrest⟩
      obtain ⟨rfl, rfl⟩ := List.cons.inj hrest
      exact hc rest rfl rfl
    have hcount : arrowCount (c :: cs) = arrowCount cs := by
      rw [arrowCount, List.tails, List.countP_cons_of_neg (by simp [hnone])]
      rfl
    rw [cutArrows, hcount, ← ih, hpieces]
    · rfl
    · exact hc
  | case3 => rfl

/-- The pieces with arrows between them are the text. -/
theorem eq_of_cutArrows {piece : List Char} {pieces : List (List Char)}
    (h : cutArrows cs = piece :: pieces) : cs = piece ++ pieces.flatMap ('-' :: '>' :: ·) := by
  induction cs using cutArrows.induct generalizing piece pieces with
  | case1 cs ih =>
    obtain ⟨first, rest, hpieces, _⟩ := (pieces_cutArrows cs).first
    rw [cutArrows, hpieces] at h
    obtain ⟨rfl, rfl⟩ := List.cons.inj h
    rw [List.nil_append, List.flatMap_cons, List.cons_append, List.cons_append, ← ih hpieces]
  | case2 c cs hc ih =>
    obtain ⟨first, rest, hpieces, _⟩ := (pieces_cutArrows cs).first
    rw [cutArrows, hpieces] at h
    · obtain ⟨rfl, rfl⟩ := List.cons.inj h
      rw [List.cons_append, ← ih hpieces]
    · exact hc
  | case3 =>
    obtain ⟨rfl, rfl⟩ := List.cons.inj h
    rfl

/-- A text with one arrow has one left and one right side. -/
theorem eq_of_cutArrows_eq_pair (hcut : cutArrows cs = [left, right]) {left' right' : List Char} :
    cs = left' ++ '-' :: '>' :: right' ↔ left' = left ∧ right' = right := by
  constructor
  · rintro rfl
    obtain ⟨l, ls, hl, _⟩ := (pieces_cutArrows left').first
    obtain ⟨r, rs, hr, _⟩ := (pieces_cutArrows right').first
    rw [cutArrows_append_arrow, hl, hr] at hcut
    obtain ⟨rfl, hrest⟩ := List.cons.inj hcut
    -- Two pieces are left, so there is one on either side.
    obtain ⟨rfl, rfl, rfl⟩ : ls = [] ∧ rs = [] ∧ r = right := by
      cases ls with
      | nil => simpa [and_comm] using hrest
      | cons l' ls => simp at hrest
    exact ⟨by simpa using eq_of_cutArrows hl, by simpa using eq_of_cutArrows hr⟩
  · rintro ⟨rfl, rfl⟩
    simpa using eq_of_cutArrows hcut

theorem endMark_mem_readAlternative_iff :
    Symbol.endMark ∈ readAlternative cs ↔ Symbol.endMark ∈ tokens (trim cs) := by
  have hne : Symbol.endMark ≠ Symbol.empty := by decide
  simp [readAlternative, hne]

/-- The rules with which nothing is wrong are those that can be read. -/
theorem not_isIllFormed_iff : ¬IsIllFormed cs ↔ ∃ rs, readRule cs = .ok rs := by
  constructor
  · intro h
    have hcount : arrowCount cs = 1 := not_not.mp fun hne => h (.arrows hne)
    have hlength := length_cutArrows cs
    rw [hcount] at hlength
    obtain ⟨left, right, hcut⟩ := List.length_eq_two.mp hlength
    have hsides := (eq_of_cutArrows_eq_pair hcut).mpr ⟨rfl, rfl⟩
    refine ⟨_, readRule_eq_ok_iff.mpr ⟨left, right, hcut, ?_, ?_, ?_, rfl⟩⟩
    · rw [Symbol.isNonterminal_iff, String.toList_ofList]
      refine ⟨fun hnil => h (.noName left right hsides hnil), fun c hc => ?_⟩
      exact Bool.of_not_eq_false fun hupper => h (.badName left right c hsides hc hupper)
    · exact fun hnil => h (.noRightSide left right hsides hnil)
    · intro bar hbar hmark
      exact h (.mark left right bar hsides hbar (endMark_mem_readAlternative_iff.mp hmark))
  · rintro ⟨rs, hread⟩ h
    obtain ⟨left, right, hcut, hname, hright, hmark, _⟩ := readRule_eq_ok_iff.mp hread
    rw [Symbol.isNonterminal_iff, String.toList_ofList] at hname
    cases h with
    | arrows hne =>
      have hlength := length_cutArrows cs
      rw [hcut] at hlength
      exact hne (Nat.succ.inj hlength).symm
    | noName left' right' hsides hnil =>
      obtain ⟨rfl, rfl⟩ := (eq_of_cutArrows_eq_pair hcut).mp hsides
      exact hname.1 hnil
    | badName left' right' c hsides hc hupper =>
      obtain ⟨rfl, rfl⟩ := (eq_of_cutArrows_eq_pair hcut).mp hsides
      exact Bool.false_ne_true (hupper.symm.trans (hname.2 c hc))
    | noRightSide left' right' hsides hnil =>
      obtain ⟨rfl, rfl⟩ := (eq_of_cutArrows_eq_pair hcut).mp hsides
      exact hright hnil
    | mark left' right' bar hsides hbar hin =>
      obtain ⟨rfl, rfl⟩ := (eq_of_cutArrows_eq_pair hcut).mp hsides
      exact hmark bar hbar (endMark_mem_readAlternative_iff.mpr hin)

theorem isIllFormed_iff : IsIllFormed cs ↔ ∃ cause, readRule cs = .error cause := by
  rw [← not_iff_not, not_isIllFormed_iff]
  cases readRule cs <;> simp

instance (cs : List Char) : Decidable (IsIllFormed cs) :=
  match hread : readRule cs with
  | .ok rs => isFalse (not_isIllFormed_iff.mpr ⟨rs, hread⟩)
  | .error cause => isTrue (isIllFormed_iff.mpr ⟨cause, hread⟩)

/-! ### Rules are words in rows -/

/-- No word is cut, so words in a row are cut into rows of words. -/
theorem exists_rows {ws : List String} (hne : ws ≠ []) (h : ∀ w ∈ ws, IsWord w) :
    ∃ rows : List (List String), (∀ row ∈ rows, row ≠ []) ∧ rows.flatten = ws ∧
      cutRules (unwords ws).toList = rows.map fun row => (unwords row).toList := by
  induction ws with
  | nil => exact absurd rfl hne
  | cons w ws ih =>
    obtain ⟨hw, hws⟩ := List.forall_mem_cons.mp h
    by_cases hnil : ws = []
    · subst hnil
      refine ⟨[[w]], by simp, rfl, ?_⟩
      have hcut := cutRules_append_word hw.2 (show cutRules [] = [[]] from rfl)
      rwa [List.append_nil] at hcut
    · obtain ⟨rows, hrows, hflat, hcut⟩ := ih hnil hws
      rw [toList_unwords_cons w hnil]
      cases hbegins : beginsRule (unwords ws).toList with
      | true =>
        refine ⟨[w] :: rows, ?_, congrArg (w :: ·) hflat, ?_⟩
        · exact List.forall_mem_cons.mpr ⟨List.cons_ne_nil _ _, hrows⟩
        · have hspace : cutRules (' ' :: (unwords ws).toList) =
              [] :: rows.map fun row => (unwords row).toList := by
            rw [cutRules, hbegins, hcut]
            rfl
          rw [cutRules_append_word hw.2 hspace, List.append_nil, List.map_cons, unwords_singleton]
      | false =>
        cases rows with
        | nil => exact absurd hcut (cutRules_ne_nil _)
        | cons row rows =>
          obtain ⟨hrow, hrows⟩ := List.forall_mem_cons.mp hrows
          refine ⟨(w :: row) :: rows, ?_, congrArg (w :: ·) hflat, ?_⟩
          · exact List.forall_mem_cons.mpr ⟨List.cons_ne_nil _ _, hrows⟩
          · have hspace : cutRules (' ' :: (unwords ws).toList) =
                (' ' :: (unwords row).toList) :: rows.map fun row => (unwords row).toList := by
              rw [cutRules, hbegins, hcut]
              rfl
            rw [cutRules_append_word hw.2 hspace, List.map_cons, toList_unwords_cons w hrow]

/-- What is cut off is not cut again. -/
theorem cutRules_of_mem_cutRules {piece : List Char} (h : piece ∈ cutRules cs) :
    cutRules piece = [piece] := by
  induction cs generalizing piece with
  | nil =>
    obtain rfl := List.mem_singleton.mp h
    rfl
  | cons c cs ih =>
    rw [cutRules] at h
    split at h
    · rcases List.mem_cons.mp h with rfl | h
      · rfl
      · exact ih h
    · next hc =>
      obtain ⟨first, rest, hpieces, hfirst⟩ := (pieces_cutRules cs).first
      rw [hpieces] at h ih
      rcases List.mem_cons.mp h with rfl | h
      · refine cutRules_cons_eq_self_iff.mpr ⟨?_, ih (List.mem_cons_self ..)⟩
        -- A rule that begins in the piece begins in the text.
        rw [Bool.and_eq_true] at hc
        rw [Bool.eq_false_iff, ne_eq, Bool.and_eq_true]
        exact fun hbegins => hc ⟨hbegins.1, beginsRule_of_prefix hfirst hbegins.2⟩
      · exact ih (List.mem_cons_of_mem _ h)

theorem layoutWords_of_isAtom {w : String} (h : IsAtom w) : layoutWords w = [w] := by
  rcases h with hmark | hplain
  · have hwords : layoutWords w = (words (spreadMarks w.toList)).map String.ofList := rfl
    rw [← w.ofList_toList]
    rcases hmark with hw | hw <;> rw [hw] <;> rfl
  · exact layoutWords_of_isPlain hplain

/-- The rules of a text are its words in rows. -/
theorem exists_rows_of_splitRules (text : String) : ∃ rows : List (List String),
    (∀ row ∈ rows, row ≠ [] ∧ layoutWords (unwords row) = row) ∧
      unwords rows.flatten = normalize text ∧ splitRules (normalize text) = rows.map unwords := by
  have hatoms : ∀ w ∈ layoutWords text, IsAtom w := fun w hw => isAtom_of_mem_layoutWords hw
  rw [normalize_eq]
  by_cases hnil : layoutWords text = []
  · rw [hnil]
    exact ⟨[], List.forall_mem_nil _, rfl, rfl⟩
  · obtain ⟨rows, hrows, hflat, hcut⟩ := exists_rows hnil fun w hw => (hatoms w hw).isWord
    have hne : (unwords (layoutWords text)).isEmpty = false := by
      rw [Bool.eq_false_iff, ne_eq, String.isEmpty_iff, ← String.toList_inj]
      exact toList_unwords_ne_nil hnil fun w hw => (hatoms w hw).isWord
    refine ⟨rows, fun row hrow => ⟨hrows row hrow, ?_⟩, by rw [hflat], ?_⟩
    · refine layoutWords_unwords fun w hw => layoutWords_of_isAtom (hatoms w ?_)
      exact hflat ▸ List.mem_flatten_of_mem hrow hw
    · rw [splitRules, hne, hcut, if_neg Bool.false_ne_true, List.map_map]
      simp

theorem unwords_splitRules (text : String) :
    unwords (splitRules (normalize text)) = normalize text := by
  obtain ⟨rows, hrows, hflat, hsplit⟩ := exists_rows_of_splitRules text
  have hrow := unwords_map_unwords (f := id) fun row hrow => (hrows row hrow).1
  rw [List.flatMap_id, hflat] at hrow
  rw [hsplit]
  exact hrow

/-! ### The rules that can be read -/

/-- Blanks at the ends of a text belong to no word. -/
theorem words_spreadMarks_trim (cs : List Char) :
    words (spreadMarks (trim cs)) = words (spreadMarks cs) := by
  have hstart : cs = cs.takeWhile isBlank ++ trimStart cs := List.takeWhile_append_dropWhile.symm
  obtain ⟨gap, hgap, htrim⟩ := exists_eq_trimEnd_append (trimStart cs)
  have hblank : ∀ c ∈ cs.takeWhile isBlank, isBlank c = true :=
    fun c hc => List.mem_takeWhile_imp hc
  calc words (spreadMarks (trim cs))
    _ = words (spreadMarks (trimEnd (trimStart cs) ++ gap)) :=
      (words_spreadMarks_append_blanks _ hgap).symm
    _ = words (spreadMarks (trimStart cs)) := by rw [← htrim]
    _ = words (spreadMarks cs) := by
      rw [← words_spreadMarks_gap hblank (trimStart cs), ← hstart]

/-- A rule that can be read begins with its name and its arrow. -/
theorem beginsRule_of_readRule (hnormal : normalize rule = rule)
    (hread : readRule rule.toList = .ok rs) : beginsRule rule.toList = true := by
  obtain ⟨left, right, hcut, hname, _⟩ := readRule_eq_ok_iff.mp hread
  have hsides : rule.toList = left ++ (['-', '>'] ++ right) :=
    (eq_of_cutArrows_eq_pair hcut).mpr ⟨rfl, rfl⟩
  have hwords : layoutWords rule =
      layoutWords (String.ofList (trim left)) ++ "->" :: layoutWords (String.ofList right) := by
    rw [layoutWords, layoutWords, layoutWords, hsides,
      words_spreadMarks_append_mark (.inl rfl), String.toList_ofList, String.toList_ofList,
      words_spreadMarks_trim, List.map_append, List.map_cons]
  rw [layoutWords_of_isPlain (isPlain_of_isNonterminal hname)] at hwords
  rw [← hnormal, normalize_eq, hwords]
  exact beginsRule_unwords hname _

/-- The rules of a text without the malformed ones. -/
def wellFormedRules (text : String) : List String :=
  (splitRules (normalize text)).filter fun rule => ¬IsIllFormed rule.toList

/-- The rules of a text have its layout. -/
theorem normalize_of_mem_splitRules {text : String} (h : rule ∈ splitRules (normalize text)) :
    layoutWords rule ≠ [] ∧ normalize rule = rule := by
  obtain ⟨rows, hrows, _, hsplit⟩ := exists_rows_of_splitRules text
  rw [hsplit] at h
  obtain ⟨row, hrow, rfl⟩ := List.mem_map.mp h
  obtain ⟨hne, hwords⟩ := hrows row hrow
  rw [normalize_eq, hwords]
  exact ⟨hne, rfl⟩

theorem cutRules_of_mem_splitRules {text : String} (h : rule ∈ splitRules text) :
    cutRules rule.toList = [rule.toList] := by
  unfold splitRules at h
  split at h
  · cases h
  · obtain ⟨piece, hpiece, rfl⟩ := List.mem_map.mp h
    rw [String.toList_ofList]
    exact cutRules_of_mem_cutRules hpiece

/-- The rules that can be read are found again without the others. -/
theorem splitRules_wellFormedRules (text : String) :
    splitRules (normalize (unwords (wellFormedRules text))) = wellFormedRules text := by
  have hnormal : ∀ rule ∈ wellFormedRules text, layoutWords rule ≠ [] ∧ normalize rule = rule :=
    fun rule h => normalize_of_mem_splitRules (List.mem_of_mem_filter h)
  have hlayout : (wellFormedRules text).map normalize = wellFormedRules text :=
    (List.map_congr_left fun rule h => (hnormal rule h).2).trans (List.map_id' _)
  rw [normalize_unwords fun rule h => (hnormal rule h).1, hlayout]
  refine splitRules_unwords (fun rule h => ?_) fun rule h => ?_
  · exact cutRules_of_mem_splitRules (List.mem_of_mem_filter h)
  · obtain ⟨rs, hread⟩ := not_isIllFormed_iff.mp (of_decide_eq_true (List.mem_filter.mp h).2)
    exact beginsRule_of_readRule (hnormal rule h).2 hread

namespace Grammar

theorem rulesIn_of_isIllFormed (h : IsIllFormed rule.toList) : rulesIn rule = [] :=
  rulesIn_eq_nil_iff.mpr (isIllFormed_iff.mp h)

theorem malformedIn?_map_rule (rule : String) : (malformedIn? rule).map Malformed.rule =
    Option.guard (fun rule => IsIllFormed rule.toList) rule := by
  rw [malformedIn?, Option.guard]
  cases hread : readRule rule.toList with
  | ok rs =>
    have hnot := not_isIllFormed_iff.mpr ⟨rs, hread⟩
    simp [hnot]
  | error cause =>
    have hbad := isIllFormed_iff.mpr ⟨cause, hread⟩
    simp [hbad]

/-- The malformed rules of a text. -/
theorem map_rule_parse (text : String) : (parse text).2.map Malformed.rule =
    (splitRules (normalize text)).filter fun rule => IsIllFormed rule.toList := by
  rw [parse_eq, List.map_filterMap, ← List.filterMap_eq_filter]
  exact congrArg (List.filterMap · _) (funext malformedIn?_map_rule)

theorem flatMap_rulesIn_wellFormedRules (text : String) :
    (wellFormedRules text).flatMap rulesIn = (splitRules (normalize text)).flatMap rulesIn := by
  rw [wellFormedRules]
  induction splitRules (normalize text) with
  | nil => rfl
  | cons rule rules ih =>
    by_cases h : IsIllFormed rule.toList
    · rw [List.filter_cons_of_neg (by simpa using h), ih, List.flatMap_cons,
        rulesIn_of_isIllFormed h, List.nil_append]
    · rw [List.filter_cons_of_pos (by simpa using h), List.flatMap_cons, ih, List.flatMap_cons]

/-- Malformed rules leave nothing behind. The rules of a text, in a row, are its normal form, and
those of them that are malformed are left out as a whole: the others, in a row, are found again, and
are read as the grammar of the text, with no malformed rule. -/
theorem parse_skips (text : String) :
    unwords (splitRules (normalize text)) = normalize text ∧
      (parse text).2.map Malformed.rule =
        (splitRules (normalize text)).filter (fun rule => IsIllFormed rule.toList) ∧
      splitRules (normalize (unwords (wellFormedRules text))) = wellFormedRules text ∧
      parse (unwords (wellFormedRules text)) = ((parse text).1, []) := by
  refine ⟨unwords_splitRules text, map_rule_parse text, splitRules_wellFormedRules text, ?_⟩
  have hnone : (wellFormedRules text).filterMap malformedIn? = [] := by
    rw [List.filterMap_eq_nil_iff]
    intro rule h
    obtain ⟨rs, hread⟩ := not_isIllFormed_iff.mp (of_decide_eq_true (List.mem_filter.mp h).2)
    rw [malformedIn?, hread]
  rw [parse_eq, splitRules_wellFormedRules, flatMap_rulesIn_wellFormedRules, hnone, parse_eq]

example : wellFormedRules "x S -> a | $ -> T -> b | ε AB -> U -> | c $" = ["T -> b | ε"] := by
  decide

/-- One rule is left, among four that are malformed for four reasons. -/
example : (parse "x S -> a | $ -> T -> b | ε AB -> U -> | c $").1.rules =
      [⟨"T", ["b"]⟩, ⟨"T", []⟩] ∧
    (parse "x S -> a | $ -> T -> b | ε AB -> U -> | c $").2 =
      [⟨"x", .noArrow⟩, ⟨"S -> a | $ ->", .severalArrows⟩, ⟨"AB ->", .noRightSide⟩,
        ⟨"U -> | c $", .reservedMark⟩] := by
  decide +kernel

end Grammar

end ShiftReduce
