/-
A text and its normal form differ in their layout, and in nothing else.

Layout is what blanks there are at the ends of a text, around its marks, and how long a gap between
two words is. Texts that differ in their layout have the same words, and every text differs from its
normal form in its layout only. So two texts have one normal form just if they differ in their
layout.

* `IsMark`, `words_spreadMarks_append_mark` — marks are words of their own;
* `marks_induction` — a text without marks, or the first mark of a text and what follows it;
* `isAtom_of_mem_layoutWords` — the words of a text are its marks and words without marks;
* `LayoutChange`, `SameLayout` — one change of a text's layout, and several of them;
* `words_eq_of_layoutChange`, `sameLayout_normalize` — changes keep the words, and lead to the
  normal form;
* `IsNormalLayout`, `isNormalLayout_unwords` — the layout of a normal form;
* `normalize_canonical` — the normal form of a text, and which texts share it.
-/
import ShiftReduce.Proofs.Grammar.Layout
import ShiftReduce.Proofs.Text.Runs
import Mathlib.Logic.Relation

namespace ShiftReduce

open Text

/-! ### Marks -/

/-- The marks of a rule text: the arrow and the bar. -/
def IsMark (mark : List Char) : Prop := mark = ['-', '>'] ∨ mark = ['|']

variable {mark before behind cs ds gap : List Char} {w : String} {ws : List String}

theorem IsMark.ne_nil (h : IsMark mark) : mark ≠ [] := by
  rcases h with rfl | rfl <;> exact List.cons_ne_nil _ _

theorem IsMark.not_isBlank (h : IsMark mark) : ∀ c ∈ mark, isBlank c = false := by
  rcases h with rfl | rfl <;> decide

theorem IsMark.spreadMarks_append (h : IsMark mark) (behind : List Char) :
    spreadMarks (mark ++ behind) = ' ' :: (mark ++ ' ' :: spreadMarks behind) := by
  rcases h with rfl | rfl
  · exact spreadMarks.eq_1 behind
  · exact spreadMarks.eq_2 behind

theorem IsMark.head?_append_ne_tip (h : IsMark mark) (behind : List Char) :
    (mark ++ behind).head? ≠ some '>' := by
  rcases h with rfl | rfl <;> exact fun heq => absurd (Option.some.inj heq) (by decide)

/-- A mark is a word, wherever it stands. -/
theorem words_spreadMarks_append_mark (h : IsMark mark) (before behind : List Char) :
    words (spreadMarks (before ++ (mark ++ behind))) =
      words (spreadMarks before) ++ mark :: words (spreadMarks behind) := by
  have hmark : words (mark ++ ' ' :: spreadMarks behind) =
      mark :: words (' ' :: spreadMarks behind) := by
    refine segments_append h.ne_nil h.not_isBlank (isChain_true _) fun _ d _ hd => ?_
    obtain rfl := Option.some.inj hd
    exact .inl isBlank_space
  rw [spreadMarks_append _ (h.head?_append_ne_tip behind), h.spreadMarks_append, words,
    segments_append_sep isBlank_space]
  exact congrArg _ (hmark.trans (congrArg _ (segments_cons_of_sep isBlank_space)))

/-- A text has no mark, or a first one. -/
theorem exists_first_mark (cs : List Char) : ('|' ∉ cs ∧ Arrowless cs) ∨
    ∃ before mark behind, '|' ∉ before ∧ Arrowless before ∧ IsMark mark ∧
      cs = before ++ (mark ++ behind) := by
  have hnone : '|' ∉ ([] : List Char) ∧ Arrowless [] := ⟨List.not_mem_nil, by decide⟩
  induction cs using spreadMarks.induct with
  | case1 cs _ => exact .inr ⟨[], _, cs, hnone.1, hnone.2, .inl rfl, rfl⟩
  | case2 cs _ => exact .inr ⟨[], _, cs, hnone.1, hnone.2, .inr rfl, rfl⟩
  | case3 c cs hc hc' ih =>
    -- No mark begins with the character, so it joins what comes before the first mark.
    have hjoin : ∀ before, before <+: cs → '|' ∉ before ∧ Arrowless before →
        '|' ∉ c :: before ∧ Arrowless (c :: before) := by
      rintro before ⟨rest, rfl⟩ ⟨hbar, harrow⟩
      refine ⟨fun hmem => ?_, ?_⟩
      · rcases List.mem_cons.mp hmem with rfl | hmem
        · exact hc' rfl
        · exact hbar hmem
      · rw [arrowless_iff] at harrow ⊢
        refine List.isChain_cons.mpr ⟨?_, harrow⟩
        rintro d hd ⟨rfl, rfl⟩
        obtain ⟨ds, rfl⟩ := List.head?_eq_some_iff.mp hd
        exact hc _ rfl rfl
    rcases ih with hplain | ⟨before, mark, behind, hbar, harrow, hmark, rfl⟩
    · exact .inl (hjoin cs (List.prefix_refl cs) hplain)
    · obtain ⟨hbar, harrow⟩ := hjoin before (List.prefix_append _ _) ⟨hbar, harrow⟩
      exact .inr ⟨c :: before, mark, behind, hbar, harrow, hmark, rfl⟩
  | case4 => exact .inl hnone

/-- What holds of texts without marks, and of a text behind whose first mark it holds, holds of
every text. -/
theorem marks_induction {P : List Char → Prop} (plain : ∀ cs, '|' ∉ cs → Arrowless cs → P cs)
    (marked : ∀ before mark behind, '|' ∉ before → Arrowless before → IsMark mark → P behind →
      P (before ++ (mark ++ behind))) (cs : List Char) : P cs := by
  induction hlength : cs.length using Nat.strong_induction_on generalizing cs with
  | h n ih =>
    rcases exists_first_mark cs with
      ⟨hbar, harrow⟩ | ⟨before, mark, behind, hbar, harrow, hmark, rfl⟩
    · exact plain cs hbar harrow
    · refine marked before mark behind hbar harrow hmark (ih _ ?_ behind rfl)
      have hpos := List.length_pos_iff.mpr hmark.ne_nil
      simp only [List.length_append] at hlength
      omega

/-! ### Words -/

/-- Words that layout does not change: the marks, and words without marks. -/
def IsAtom (w : String) : Prop := IsMark w.toList ∨ IsPlain w

/-- The words of a text are its marks and words without marks. -/
theorem isAtom_of_mem_layoutWords {text : String} (h : w ∈ layoutWords text) : IsAtom w := by
  obtain ⟨run, hrun, rfl⟩ := List.mem_map.mp h
  rw [IsAtom, isPlain_iff, IsWord, String.toList_ofList]
  generalize text.toList = cs at hrun
  have hplain : ∀ cs, '|' ∉ cs → Arrowless cs → run ∈ words (spreadMarks cs) →
      (run ≠ [] ∧ ∀ c ∈ run, isBlank c = false) ∧ '|' ∉ run ∧ Arrowless run := by
    intro cs hbar harrow hrun
    rw [spreadMarks_of_isPlain hbar harrow] at hrun
    exact ⟨isWord_of_mem_words hrun, markless_of_mem_segments hbar harrow hrun⟩
  induction cs using marks_induction with
  | plain cs hbar harrow => exact .inr (hplain cs hbar harrow hrun)
  | marked before mark behind hbar harrow hmark ih =>
    rw [words_spreadMarks_append_mark hmark, List.mem_append, List.mem_cons] at hrun
    rcases hrun with hrun | rfl | hrun
    · exact .inr (hplain before hbar harrow hrun)
    · exact .inl hmark
    · exact ih hrun

/-! ### Layout -/

/-- One change of a text's layout: another gap in the place of one, or blanks put beside a mark or
at an end of the text. -/
inductive LayoutChange : List Char → List Char → Prop
  | gap (before behind : List Char) {gap gap' : List Char} : gap ≠ [] →
      (∀ c ∈ gap, isBlank c = true) → gap' ≠ [] → (∀ c ∈ gap', isBlank c = true) →
      LayoutChange (before ++ (gap ++ behind)) (before ++ (gap' ++ behind))
  | beforeMark (before behind : List Char) {mark gap : List Char} : IsMark mark →
      (∀ c ∈ gap, isBlank c = true) →
      LayoutChange (before ++ (mark ++ behind)) (before ++ (gap ++ (mark ++ behind)))
  | behindMark (before behind : List Char) {mark gap : List Char} : IsMark mark →
      (∀ c ∈ gap, isBlank c = true) →
      LayoutChange (before ++ (mark ++ behind)) (before ++ (mark ++ (gap ++ behind)))
  | atStart (cs : List Char) {gap : List Char} : (∀ c ∈ gap, isBlank c = true) →
      LayoutChange cs (gap ++ cs)
  | atEnd (cs : List Char) {gap : List Char} : (∀ c ∈ gap, isBlank c = true) →
      LayoutChange cs (cs ++ gap)

/-- Texts that differ in their layout only: changes of layout, made or taken back one after another,
lead from one to the other. -/
def SameLayout : List Char → List Char → Prop := Relation.EqvGen LayoutChange

/-- What no change of layout changes is the same for texts that differ in their layout only. -/
theorem SameLayout.congr {α : Type} {f : List Char → α}
    (hf : ∀ cs ds, LayoutChange cs ds → f cs = f ds) (h : SameLayout cs ds) : f cs = f ds := by
  induction h with
  | rel cs ds h => exact hf cs ds h
  | refl cs => rfl
  | symm cs ds _ ih => exact ih.symm
  | trans cs ds es _ _ ih ih' => exact ih.trans ih'

theorem words_spreadMarks_append_blanks (cs : List Char) (hgap : ∀ c ∈ gap, isBlank c = true) :
    words (spreadMarks (cs ++ gap)) = words (spreadMarks cs) := by
  by_cases hne : gap = []
  · rw [hne, List.append_nil]
  · have happend := words_spreadMarks_append_gap cs hne hgap []
    rwa [List.append_nil, show words (spreadMarks []) = [] from rfl, List.append_nil] at happend

/-- No change of layout changes the words. -/
theorem words_eq_of_layoutChange (h : LayoutChange cs ds) :
    words (spreadMarks cs) = words (spreadMarks ds) := by
  cases h with
  | gap before behind hne hgap hne' hgap' =>
    rw [words_spreadMarks_append_gap before hne hgap,
      words_spreadMarks_append_gap before hne' hgap']
  | beforeMark before behind hmark hgap =>
    rw [words_spreadMarks_append_mark hmark, ← List.append_assoc before,
      words_spreadMarks_append_mark hmark, words_spreadMarks_append_blanks before hgap]
  | behindMark before behind hmark hgap =>
    rw [words_spreadMarks_append_mark hmark, words_spreadMarks_append_mark hmark,
      words_spreadMarks_gap hgap]
  | atStart cs hgap => rw [words_spreadMarks_gap hgap]
  | atEnd cs hgap => rw [words_spreadMarks_append_blanks cs hgap]

/-- Nor does it change the characters that are no blanks. -/
theorem filter_eq_of_layoutChange (h : LayoutChange cs ds) :
    cs.filter (fun c => !isBlank c) = ds.filter (fun c => !isBlank c) := by
  have hnone : ∀ gap : List Char, (∀ c ∈ gap, isBlank c = true) →
      gap.filter (fun c => !isBlank c) = [] := by
    intro gap hgap
    rw [List.filter_eq_nil_iff]
    exact fun c hc => by rw [hgap c hc]; decide
  cases h with
  | gap before behind _ hgap _ hgap' => simp only [List.filter_append, hnone _ hgap, hnone _ hgap']
  | beforeMark before behind _ hgap =>
    simp only [List.filter_append, hnone _ hgap, List.nil_append]
  | behindMark before behind _ hgap =>
    simp only [List.filter_append, hnone _ hgap, List.nil_append]
  | atStart cs hgap => rw [List.filter_append, hnone _ hgap, List.nil_append]
  | atEnd cs hgap => rw [List.filter_append, hnone _ hgap, List.append_nil]

theorem normalize_eq_of_sameLayout {s t : String} (h : SameLayout s.toList t.toList) :
    normalize s = normalize t := by
  have hwords : words (spreadMarks s.toList) = words (spreadMarks t.toList) :=
    h.congr (f := fun cs => words (spreadMarks cs)) fun _ _ => words_eq_of_layoutChange
  rw [normalize_eq, normalize_eq, layoutWords, layoutWords, hwords]

/-! ### From a text to its normal form -/

theorem sameLayout_spreadMarks (before cs : List Char) :
    SameLayout (before ++ cs) (before ++ spreadMarks cs) := by
  induction cs using marks_induction generalizing before with
  | plain cs hbar harrow =>
    rw [spreadMarks_of_isPlain hbar harrow]
    exact .refl _
  | marked first mark behind hbar harrow hmark ih =>
    have hspace : ∀ c ∈ [' '], isBlank c = true := by decide
    rw [spreadMarks_append _ (hmark.head?_append_ne_tip behind), hmark.spreadMarks_append,
      spreadMarks_of_isPlain hbar harrow, ← List.append_assoc, ← List.append_assoc]
    have hleft := LayoutChange.beforeMark (before ++ first) behind hmark hspace
    have hright := LayoutChange.behindMark (before ++ first ++ [' ']) behind hmark hspace
    have hrest := ih (before ++ first ++ [' '] ++ (mark ++ [' ']))
    simp only [List.append_assoc, List.cons_append, List.nil_append] at hleft hright hrest ⊢
    exact .trans _ _ _ (.rel _ _ hleft) (.trans _ _ _ (.rel _ _ hright) hrest)

/-- What follows a word is a blank. -/
theorem isBlank_of_follows {run rest : List Char} (hne : run ≠ [])
    (hend : ∀ c d, run.getLast? = some c → rest.head? = some d → isBlank d = true ∨ true = false)
    {d : Char} (hd : rest.head? = some d) : isBlank d = true :=
  (hend _ d (List.getLast?_eq_getLast_of_ne_nil hne) hd).resolve_right Bool.noConfusion

/-- Each gap before a word is made one space, and the last one is dropped. -/
theorem sameLayout_flatMap {runs : List (List Char)}
    (h : LaidOut isBlank (fun _ _ => true) cs runs) (before : List Char)
    (hcs : ∀ c, cs.head? = some c → isBlank c = true) :
    SameLayout (before ++ cs) (before ++ runs.flatMap (' ' :: ·)) := by
  induction h generalizing before with
  | nil hgap =>
    rw [List.flatMap_nil, List.append_nil]
    exact .symm _ _ (.rel _ _ (.atEnd before hgap))
  | @cons gap run rest runs hgap hrun hend _ ih =>
    have hne : gap ≠ [] := by
      rintro rfl
      obtain ⟨c, cs, rfl⟩ := List.exists_cons_of_ne_nil hrun.ne_nil
      cases (hcs c rfl).symm.trans (hrun.not_sep c (List.mem_cons_self ..))
    have hspace := LayoutChange.gap before (run ++ rest) hne hgap (List.cons_ne_nil ' ' [])
      (by decide)
    have hrest := ih (before ++ ' ' :: run) fun d hd => isBlank_of_follows hrun.ne_nil hend hd
    simp only [List.append_assoc, List.cons_append, List.nil_append, List.flatMap_cons]
      at hspace hrest ⊢
    exact .trans _ _ _ (.rel _ _ hspace) hrest

/-- The words of a text, in a row, differ from it in their layout only. -/
theorem sameLayout_unwords_words (cs : List Char) :
    SameLayout cs (unwords ((words cs).map String.ofList)).toList := by
  have h : LaidOut isBlank (fun _ _ => true) cs (words cs) := laidOut_segments _ _ cs
  generalize words cs = runs at h
  cases h with
  | @nil gap hgap =>
    have hstart := LayoutChange.atStart [] hgap
    rw [List.append_nil] at hstart
    exact .symm _ _ (.rel _ _ hstart)
  | @cons gap run rest runs hgap hrun hend hrest =>
    have hgaps := sameLayout_flatMap hrest run fun d hd => isBlank_of_follows hrun.ne_nil hend hd
    rw [List.map_cons, toList_unwords, String.toList_ofList, List.flatMap_map]
    simp only [String.toList_ofList]
    exact .trans _ _ _ (.symm _ _ (.rel _ _ (.atStart _ hgap))) hgaps

/-- A text and its normal form differ in their layout only. -/
theorem sameLayout_normalize (text : String) : SameLayout text.toList (normalize text).toList :=
  .trans _ _ _ (sameLayout_spreadMarks [] text.toList) (sameLayout_unwords_words _)

/-! ### The layout of a normal form -/

/-- Texts whose blanks are single spaces between other characters, and whose marks have a space on
each side that is no end of the text. -/
structure IsNormalLayout (cs : List Char) : Prop where
  blanks : ∀ before c behind, cs = before ++ c :: behind → isBlank c = true →
    c = ' ' ∧ (∃ d, before.getLast? = some d ∧ isBlank d = false) ∧
      ∃ d, behind.head? = some d ∧ isBlank d = false
  marks : ∀ before mark behind, IsMark mark → cs = before ++ (mark ++ behind) →
    (before = [] ∨ before.getLast? = some ' ') ∧ (behind = [] ∨ behind.head? = some ' ')

theorem IsMark.isWord (h : IsMark w.toList) : IsWord w := ⟨h.ne_nil, h.not_isBlank⟩

theorem IsAtom.isWord (h : IsAtom w) : IsWord w := h.elim IsMark.isWord IsPlain.isWord

theorem IsMark.eq_of_isInfix {mark' : List Char} (h : IsMark mark) (h' : IsMark mark')
    (hpart : mark <:+: mark') : mark = mark' := by
  rcases h with rfl | rfl <;> rcases h' with rfl | rfl
  · rfl
  · exact absurd hpart (by decide)
  · exact absurd hpart (by decide)
  · rfl

/-- A word that holds a mark is this mark. -/
theorem IsAtom.eq_nil_of_mark (h : IsAtom w) (hmark : IsMark mark)
    (hw : w.toList = before ++ (mark ++ behind)) : before = [] ∧ behind = [] := by
  have hpart : mark <:+: w.toList := ⟨before, behind, by rw [hw, List.append_assoc]⟩
  rcases h with hw' | hplain
  · have hlength := congrArg List.length hw
    rw [← hmark.eq_of_isInfix hw' hpart, List.length_append, List.length_append] at hlength
    exact ⟨List.eq_nil_of_length_eq_zero (by omega), List.eq_nil_of_length_eq_zero (by omega)⟩
  · rcases hmark with rfl | rfl
    · exact absurd hpart hplain.arrowless
    · exact absurd (hpart.subset (List.mem_singleton_self _)) hplain.bar_not_mem

/-- Words in a row begin with no blank. -/
theorem exists_head?_unwords (hne : ws ≠ []) (h : ∀ w ∈ ws, IsWord w) :
    ∃ d, (unwords ws).toList.head? = some d ∧ isBlank d = false := by
  obtain ⟨w, ws, rfl⟩ := List.exists_cons_of_ne_nil hne
  obtain ⟨hchars, hblank⟩ := h w (List.mem_cons_self ..)
  obtain ⟨d, ds, hds⟩ := List.exists_cons_of_ne_nil hchars
  refine ⟨d, ?_, hblank d (hds ▸ List.mem_cons_self ..)⟩
  rw [toList_unwords, hds]
  rfl

/-- Where one of several words in a row holds a character: in the first of them, between it and the
others, or in these. -/
theorem unwords_cases (hne : ws ≠ []) {c : Char}
    (h : (unwords (w :: ws)).toList = before ++ c :: behind) :
    (∃ mid, w.toList = before ++ c :: mid ∧ behind = mid ++ ' ' :: (unwords ws).toList) ∨
      (before = w.toList ∧ c = ' ' ∧ behind = (unwords ws).toList) ∨
      ∃ mid, before = w.toList ++ ' ' :: mid ∧ (unwords ws).toList = mid ++ c :: behind := by
  rw [toList_unwords_cons w hne] at h
  rcases append_eq_append_cons_cases h with hfirst | ⟨mid, hrest, hbefore⟩
  · exact .inl hfirst
  · cases mid with
    | nil =>
      obtain ⟨rfl, rfl⟩ := List.cons.inj hrest
      exact .inr (.inl ⟨by rw [hbefore, List.append_nil], rfl, rfl⟩)
    | cons d mid =>
      obtain ⟨rfl, hin⟩ := List.cons.inj hrest
      exact .inr (.inr ⟨mid, hbefore, hin⟩)

/-- What holds no space ends before one. -/
theorem exists_of_append_eq_append_space {xs ys zs : List Char} (hxs : ' ' ∉ xs)
    (h : xs ++ behind = ys ++ ' ' :: zs) : ∃ mid, ys = xs ++ mid ∧ behind = mid ++ ' ' :: zs := by
  rcases append_eq_append_cons_cases h with ⟨mid, rfl, _⟩ | ⟨mid, hbehind, hys⟩
  · exact absurd (by simp) hxs
  · exact ⟨mid, hys, hbehind⟩

theorem getLast?_append_space (before : List Char) {mid : List Char} {d : Char}
    (h : mid.getLast? = some d) : (before ++ ' ' :: mid).getLast? = some d := by
  rw [List.getLast?_append_cons, List.getLast?_cons, h]
  rfl

theorem IsAtom.isNormalLayout (h : IsAtom w) : IsNormalLayout w.toList := by
  constructor
  · intro before c behind hchars hc
    cases (h.isWord.2 c (by simp [hchars])).symm.trans hc
  · intro before mark behind hmark hchars
    obtain ⟨rfl, rfl⟩ := h.eq_nil_of_mark hmark hchars
    exact ⟨.inl rfl, .inl rfl⟩

/-- One more word before others. -/
theorem IsNormalLayout.cons (h : IsNormalLayout (unwords ws).toList) (hw : IsAtom w)
    (hne : ws ≠ []) (hws : ∀ v ∈ ws, IsAtom v) : IsNormalLayout (unwords (w :: ws)).toList := by
  constructor
  · intro before c behind hchars hc
    rcases unwords_cases hne hchars with ⟨mid, hin, _⟩ | ⟨rfl, rfl, rfl⟩ | ⟨mid, rfl, hin⟩
    · cases (hw.isWord.2 c (by simp [hin])).symm.trans hc
    · refine ⟨rfl, ?_, exists_head?_unwords hne fun v hv => (hws v hv).isWord⟩
      exact ⟨_, List.getLast?_eq_getLast_of_ne_nil hw.isWord.1, hw.isWord.2 _ (List.getLast_mem _)⟩
    · obtain ⟨rfl, ⟨d, hd, hblank⟩, hbehind⟩ := h.blanks mid c behind hin hc
      exact ⟨rfl, ⟨d, getLast?_append_space _ hd, hblank⟩, hbehind⟩
  · intro before mark behind hmark hchars
    obtain ⟨c, rest, rfl⟩ := List.exists_cons_of_ne_nil hmark.ne_nil
    rcases unwords_cases hne hchars with ⟨mid, hin, htail⟩ | ⟨rfl, rfl, _⟩ | ⟨mid, rfl, hin⟩
    · -- The whole mark is in the first word, which is this mark.
      have hspace : ' ' ∉ rest := fun hmem =>
        Bool.noConfusion <|
          (hmark.not_isBlank ' ' (List.mem_cons_of_mem c hmem)).symm.trans isBlank_space
      obtain ⟨mid, rfl, rfl⟩ := exists_of_append_eq_append_space hspace htail
      obtain ⟨rfl, rfl⟩ := hw.eq_nil_of_mark hmark hin
      exact ⟨.inl rfl, .inr rfl⟩
    · cases (hmark.not_isBlank ' ' (List.mem_cons_self ..)).symm.trans isBlank_space
    · obtain ⟨hleft, hright⟩ := h.marks mid _ behind hmark hin
      refine ⟨.inr ?_, hright⟩
      rcases hleft with rfl | hleft
      · exact List.getLast?_concat
      · exact getLast?_append_space _ hleft

/-- Marks and words without marks, in a row, have the layout of a normal form. -/
theorem isNormalLayout_unwords (h : ∀ w ∈ ws, IsAtom w) : IsNormalLayout (unwords ws).toList := by
  induction ws with
  | nil =>
    refine ⟨fun before c behind hnil => absurd hnil.symm (by simp [unwords]), ?_⟩
    intro before mark behind hmark hnil
    have hmark' := hmark.ne_nil
    simp [unwords, hmark'] at hnil
  | cons w ws ih =>
    obtain ⟨hw, hws⟩ := List.forall_mem_cons.mp h
    by_cases hne : ws = []
    · subst hne
      rw [unwords_singleton]
      exact hw.isNormalLayout
    · exact (ih hws).cons hw hne hws

/-- Normal form is a canonical form for layout. It has the characters of its text other than blanks,
and a normal layout, and it is its own normal form. Two texts have one normal form just if they
differ in their layout only, and then they are read as one grammar with the same malformed rules. -/
theorem normalize_canonical :
    (∀ text : String,
      (normalize text).toList.filter (fun c => !isBlank c) =
        text.toList.filter (fun c => !isBlank c) ∧
      IsNormalLayout (normalize text).toList ∧ normalize (normalize text) = normalize text) ∧
    ∀ s t : String, (normalize s = normalize t ↔ SameLayout s.toList t.toList) ∧
      (SameLayout s.toList t.toList → Grammar.parse s = Grammar.parse t) := by
  constructor
  · intro text
    have hsame := sameLayout_normalize text
    have hfilter := hsame.congr fun _ _ => filter_eq_of_layoutChange
    exact ⟨hfilter.symm, isNormalLayout_unwords fun w hw => isAtom_of_mem_layoutWords hw,
      (normalize_eq_of_sameLayout hsame).symm⟩
  · intro s t
    refine ⟨⟨fun heq => ?_, normalize_eq_of_sameLayout⟩, fun hsame => ?_⟩
    · have hs := sameLayout_normalize s
      rw [heq] at hs
      exact .trans _ _ _ hs (.symm _ _ (sameLayout_normalize t))
    · rw [Grammar.parse, Grammar.parse, normalize_eq_of_sameLayout hsame]

example : normalize " S->a |\tb-->c " = "S -> a | b- -> c" := by decide

end ShiftReduce
