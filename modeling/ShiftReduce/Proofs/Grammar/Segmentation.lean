/-
The symbols of an alternative are the only ones that it can be cut into.

A text is cut into symbols of one class each, in one piece and without spaces, so that two
neighbours of one class have a space between them. There is exactly one way to do this.

* `IsSegmentation` — what it is to cut a text into symbols;
* `isSegmentation_of_laidOut`, `IsSegmentation.laidOut` — the symbols are runs that the text is laid
  out in;
* `tokens_segment` — the symbols of an alternative are the only segmentation of its text.
-/
import ShiftReduce.Proofs.Grammar.Printing
import ShiftReduce.Proofs.Text.Runs

namespace ShiftReduce

open Text

/-- The text without its spaces. -/
def withoutSpaces (cs : List Char) : List Char := cs.filter (· ≠ ' ')

/-- Symbols that a text is cut into. -/
structure IsSegmentation (cs : List Char) (ts : List Symbol) : Prop where
  /-- The symbols hold all characters of the text but the spaces. -/
  chars : ts.flatMap String.toList = withoutSpaces cs
  ne_nil : ∀ t ∈ ts, t.toList ≠ []
  /-- Each symbol consists of the letters A to Z, or holds none of them. -/
  isUniform : ∀ t ∈ ts, t.IsUniform
  /-- Each symbol stands in the text in one piece. -/
  whole : ∀ (before : List Symbol) (t : Symbol) (behind : List Symbol),
    ts = before ++ t :: behind → ∃ left right, cs = left ++ (t.toList ++ right) ∧
      withoutSpaces left = before.flatMap String.toList ∧
      withoutSpaces right = behind.flatMap String.toList
  /-- There is a space between two neighbours of one class. -/
  apart : ∀ (before : List Symbol) (t u : Symbol) (behind : List Symbol),
    ts = before ++ t :: u :: behind → t.isNonterminal = u.isNonterminal → ∃ left gap right,
      cs = left ++ (t.toList ++ (gap ++ (u.toList ++ right))) ∧ gap ≠ [] ∧ (∀ c ∈ gap, c = ' ') ∧
      withoutSpaces left = before.flatMap String.toList ∧
      withoutSpaces right = behind.flatMap String.toList

variable {cs left right : List Char} {s t : Symbol} {ts : List Symbol}

/-! ### Texts and classes -/

theorem withoutSpaces_append (cs ds : List Char) :
    withoutSpaces (cs ++ ds) = withoutSpaces cs ++ withoutSpaces ds := List.filter_append ..

theorem withoutSpaces_eq_nil_iff : withoutSpaces cs = [] ↔ ∀ c ∈ cs, c = ' ' := by
  simp [withoutSpaces]

theorem withoutSpaces_eq_self (h : ' ' ∉ cs) : withoutSpaces cs = cs :=
  List.filter_eq_self.mpr fun _ hc => decide_eq_true fun heq => h (heq ▸ hc)

/-- All characters of a symbol are of its class. -/
theorem Symbol.IsUniform.isUpper_eq (h : s.IsUniform) {c : Char} (hc : c ∈ s.toList) :
    c.isUpper = s.isNonterminal := by
  have hall : s.isNonterminal = true → c.isUpper = true := fun hs =>
    (isNonterminal_iff.mp hs).2 c hc
  rcases h with hs | hnone
  · rw [hall hs, hs]
  · rw [hnone c hc, eq_comm, Bool.eq_false_iff]
    exact fun hs => Bool.false_ne_true ((hnone c hc).symm.trans (hall hs))

/-- Symbols that a text is laid out in, as runs of one class. -/
def LaidOutIn (cs : List Char) (ts : List Symbol) : Prop :=
  LaidOut (· = ' ') (fun c d => c.isUpper == d.isUpper) cs (ts.map String.toList)

theorem LaidOutIn.withoutSpaces_eq (h : LaidOutIn cs ts) :
    withoutSpaces cs = ts.flatMap String.toList := by
  have hflat := h.flatten
  rw [← List.flatMap_def] at hflat
  rw [hflat, withoutSpaces]
  exact List.filter_congr fun _ _ => by simp

/-! ### Runs are symbols -/

theorem isRun_iff : IsRun (· = ' ') (fun c d => c.isUpper == d.isUpper) s.toList ↔
    s.toList ≠ [] ∧ ' ' ∉ s.toList ∧ s.IsUniform := by
  constructor
  · intro h
    refine ⟨h.ne_nil, fun hspace => ?_, (Symbol.isUniform_iff h.ne_nil).mpr h.joined⟩
    exact absurd (h.not_sep ' ' hspace) (by decide)
  · rintro ⟨hne, hspace, huniform⟩
    refine ⟨hne, fun c hc => decide_eq_false ?_, (Symbol.isUniform_iff hne).mp huniform⟩
    rintro rfl
    exact hspace hc

/-- A text that is laid out in symbols begins with spaces and the first of them. -/
theorem LaidOutIn.exists_rest (h : LaidOutIn cs (t :: ts)) : ∃ gap rest,
    cs = gap ++ (t.toList ++ rest) ∧ (∀ c ∈ gap, c = ' ') ∧
      (t.toList ≠ [] ∧ ' ' ∉ t.toList ∧ t.IsUniform) ∧
      (∀ c d, t.toList.getLast? = some c → rest.head? = some d →
        d = ' ' ∨ c.isUpper ≠ d.isUpper) ∧ LaidOutIn rest ts := by
  unfold LaidOutIn at h
  rw [List.map_cons] at h
  generalize hruns : t.toList :: ts.map String.toList = runs at h
  cases h with
  | nil => cases hruns
  | @cons gap run rest runs hgap hrun hend hrest =>
    obtain ⟨rfl, rfl⟩ := List.cons.inj hruns
    refine ⟨gap, rest, rfl, fun c hc => of_decide_eq_true (hgap c hc), isRun_iff.mp hrun,
      fun c d hc hd => ?_, hrest⟩
    simpa using hend c d hc hd

/-- A text can be divided between any two of its symbols. -/
theorem LaidOutIn.split {before behind : List Symbol} (h : LaidOutIn cs (before ++ behind)) :
    ∃ left right, cs = left ++ right ∧ LaidOutIn left before ∧ LaidOutIn right behind := by
  unfold LaidOutIn at h
  rw [List.map_append] at h
  exact LaidOut.split h

theorem isSegmentation_of_laidOut (h : LaidOutIn cs ts) : IsSegmentation cs ts := by
  have hsymbol : ∀ t ∈ ts, t.toList ≠ [] ∧ ' ' ∉ t.toList ∧ t.IsUniform := by
    intro t ht
    obtain ⟨before, behind, rfl⟩ := List.append_of_mem ht
    obtain ⟨_, _, _, _, hright⟩ := h.split
    obtain ⟨_, _, _, _, ht, _⟩ := hright.exists_rest
    exact ht
  refine ⟨h.withoutSpaces_eq.symm, fun t ht => (hsymbol t ht).1, fun t ht => (hsymbol t ht).2.2,
    ?_, ?_⟩
  · rintro before t behind rfl
    obtain ⟨left, right, rfl, hleft, hright⟩ := h.split
    obtain ⟨gap, rest, rfl, hgap, _, _, hrest⟩ := hright.exists_rest
    refine ⟨left ++ gap, rest, (List.append_assoc ..).symm, ?_, hrest.withoutSpaces_eq⟩
    rw [withoutSpaces_append, withoutSpaces_eq_nil_iff.mpr hgap, List.append_nil,
      hleft.withoutSpaces_eq]
  · rintro before t u behind rfl hclass
    obtain ⟨left, right, rfl, hleft, hright⟩ := h.split
    obtain ⟨gap, rest, rfl, hgap, ht, hend, hrest⟩ := hright.exists_rest
    obtain ⟨gap', rest', rfl, hgap', hu, _, hrest'⟩ := hrest.exists_rest
    refine ⟨left ++ gap, gap', rest', (List.append_assoc ..).symm, ?_, hgap', ?_,
      hrest'.withoutSpaces_eq⟩
    · -- Otherwise the second symbol would join the first.
      rintro rfl
      obtain ⟨d, ds, hds⟩ := List.exists_cons_of_ne_nil hu.1
      have hd : d ∈ u.toList := hds ▸ List.mem_cons_self ..
      have hc := List.getLast_mem ht.1
      rcases hend _ d (List.getLast?_eq_getLast_of_ne_nil ht.1)
        (by rw [List.nil_append, hds]; rfl) with hspace | hdiffer
      · exact hu.2.1 (hspace ▸ hd)
      · exact hdiffer (by rw [ht.2.2.isUpper_eq hc, hu.2.2.isUpper_eq hd, hclass])
    · rw [withoutSpaces_append, withoutSpaces_eq_nil_iff.mpr hgap, List.append_nil,
        hleft.withoutSpaces_eq]

/-! ### Symbols are runs -/

/-- Of two divisions of a text the one that leaves more characters on its left is further on, if its
right part does not begin with a space. -/
theorem exists_middle {xs ys xs' ys' zs : List Char} (heq : xs ++ ys = xs' ++ ys')
    (hspaces : withoutSpaces xs' = withoutSpaces xs ++ zs)
    (hhead : ∀ c, ys'.head? = some c → c ≠ ' ') :
    ∃ mid, xs' = xs ++ mid ∧ ys = mid ++ ys' ∧ withoutSpaces mid = zs := by
  rcases List.append_eq_append_iff.mp heq with ⟨mid, rfl, rfl⟩ | ⟨mid, rfl, rfl⟩
  · rw [withoutSpaces_append] at hspaces
    exact ⟨mid, rfl, rfl, List.append_cancel_left hspaces⟩
  · -- Here the second division is not behind the first, so they are the same.
    rw [withoutSpaces_append, List.append_assoc, List.self_eq_append_right,
      List.append_eq_nil_iff] at hspaces
    obtain ⟨hmid, rfl⟩ := hspaces
    cases mid with
    | nil => exact ⟨[], by simp, rfl, rfl⟩
    | cons c mid =>
      have hc := withoutSpaces_eq_nil_iff.mp hmid c (List.mem_cons_self ..)
      exact absurd hc (hhead c rfl)

theorem IsSegmentation.space_not_mem (h : IsSegmentation cs ts) (ht : t ∈ ts) :
    ' ' ∉ t.toList := by
  intro hspace
  have hmem : ' ' ∈ withoutSpaces cs := h.chars ▸ List.mem_flatMap_of_mem ht hspace
  simp [withoutSpaces] at hmem

theorem head?_append_toList_ne_space (hne : t.toList ≠ []) (hspace : ' ' ∉ t.toList)
    (rest : List Char) : ∀ c, (t.toList ++ rest).head? = some c → c ≠ ' ' := by
  obtain ⟨d, ds, hds⟩ := List.exists_cons_of_ne_nil hne
  rintro c hc rfl
  rw [hds] at hc hspace
  obtain rfl := Option.some.inj hc
  exact hspace (List.mem_cons_self ..)

/-- Behind its first symbol a text is cut into the others. -/
theorem IsSegmentation.tail (h : IsSegmentation (left ++ (t.toList ++ right)) (t :: ts))
    (hleft : withoutSpaces left = []) (hright : withoutSpaces right = ts.flatMap String.toList) :
    IsSegmentation right ts := by
  have hchars : withoutSpaces (left ++ t.toList) = t.toList := by
    rw [withoutSpaces_append, hleft, List.nil_append,
      withoutSpaces_eq_self (h.space_not_mem (List.mem_cons_self ..))]
  -- Every other symbol stands behind the first one.
  have hbehind : ∀ u ∈ ts, ∀ left' rest zs : List Char,
      left ++ (t.toList ++ right) = left' ++ (u.toList ++ rest) →
      withoutSpaces left' = t.toList ++ zs →
      ∃ mid, right = mid ++ (u.toList ++ rest) ∧ withoutSpaces mid = zs := by
    intro u hu left' rest zs htext hspaces
    have hu := List.mem_cons_of_mem t hu
    rw [← hchars] at hspaces
    rw [← List.append_assoc] at htext
    obtain ⟨mid, _, hmid, hzs⟩ := exists_middle htext hspaces
      (head?_append_toList_ne_space (h.ne_nil u hu) (h.space_not_mem hu) _)
    exact ⟨mid, hmid, hzs⟩
  refine ⟨hright.symm, fun u hu => h.ne_nil u (List.mem_cons_of_mem t hu),
    fun u hu => h.isUniform u (List.mem_cons_of_mem t hu), ?_, ?_⟩
  · rintro before u behind rfl
    obtain ⟨left', right', htext, hleft', hright'⟩ := h.whole (t :: before) u behind rfl
    obtain ⟨mid, hmid, hspaces⟩ := hbehind u (by simp) left' _ _ htext hleft'
    exact ⟨mid, right', hmid, hspaces, hright'⟩
  · rintro before u v behind rfl hclass
    obtain ⟨left', gap, right', htext, hgap, hblank, hleft', hright'⟩ :=
      h.apart (t :: before) u v behind rfl hclass
    obtain ⟨mid, hmid, hspaces⟩ := hbehind u (by simp) left' _ _ htext hleft'
    exact ⟨mid, gap, right', hmid, hgap, hblank, hspaces, hright'⟩

/-- What follows the first symbol does not join it. -/
theorem IsSegmentation.not_joins (h : IsSegmentation (left ++ (t.toList ++ right)) (t :: ts))
    (hleft : withoutSpaces left = []) (hright : withoutSpaces right = ts.flatMap String.toList)
    {c d : Char} (hc : t.toList.getLast? = some c) (hd : right.head? = some d) :
    d = ' ' ∨ c.isUpper ≠ d.isUpper := by
  rw [or_iff_not_imp_left]
  intro hdspace hclass
  have ht : t ∈ t :: ts := List.mem_cons_self ..
  have hcmem : c ∈ t.toList := List.mem_of_getLast? hc
  -- The character begins the next symbol, which is of the same class.
  obtain ⟨rest, rfl⟩ := List.head?_eq_some_iff.mp hd
  rw [withoutSpaces, List.filter_cons_of_pos (by simpa using hdspace)] at hright
  cases ts with
  | nil => cases hright
  | cons u ts =>
    have hu : u ∈ t :: u :: ts := by simp
    obtain ⟨e, es, hes⟩ := List.exists_cons_of_ne_nil (h.ne_nil u hu)
    rw [List.flatMap_cons, hes, List.cons_append] at hright
    obtain ⟨rfl, _⟩ := List.cons.inj hright
    have hdmem : d ∈ u.toList := hes ▸ List.mem_cons_self ..
    have hsame : t.isNonterminal = u.isNonterminal := by
      rw [← (h.isUniform t ht).isUpper_eq hcmem, ← (h.isUniform u hu).isUpper_eq hdmem, hclass]
    obtain ⟨left', gap, right', htext, hgap, hblank, hleft', _⟩ := h.apart [] t u ts rfl hsame
    have htext : left ++ t.toList ++ d :: rest =
        left' ++ t.toList ++ gap ++ (u.toList ++ right') := by
      simpa only [List.append_assoc] using htext
    have hspaces : withoutSpaces (left' ++ t.toList ++ gap) =
        withoutSpaces (left ++ t.toList) ++ [] := by
      rw [List.append_nil, withoutSpaces_append, withoutSpaces_append, withoutSpaces_append, hleft,
        hleft', withoutSpaces_eq_nil_iff.mpr hblank, List.append_nil]
      rfl
    obtain ⟨mid, hbefore, hmid, hnone⟩ := exists_middle htext hspaces
      (head?_append_toList_ne_space (h.ne_nil u hu) (h.space_not_mem hu) _)
    cases mid with
    | nil =>
      -- The gap would be a part of the first symbol.
      have hlast := congrArg List.getLast? hbefore
      rw [List.append_nil, List.getLast?_append_of_ne_nil _ hgap,
        List.getLast?_append_of_ne_nil _ (h.ne_nil t ht), hc] at hlast
      exact h.space_not_mem ht (hblank c (List.mem_of_getLast? hlast) ▸ hcmem)
    | cons e mid =>
      obtain ⟨rfl, _⟩ := List.cons.inj hmid
      exact hdspace (withoutSpaces_eq_nil_iff.mp hnone d (List.mem_cons_self ..))

/-- Symbols that a text is cut into are runs that it is laid out in. -/
theorem IsSegmentation.laidOut (h : IsSegmentation cs ts) : LaidOutIn cs ts := by
  induction ts generalizing cs with
  | nil =>
    have hspaces := withoutSpaces_eq_nil_iff.mp h.chars.symm
    exact .nil fun c hc => decide_eq_true (hspaces c hc)
  | cons t ts ih =>
    have ht : t ∈ t :: ts := List.mem_cons_self ..
    obtain ⟨left, right, rfl, hleft, hright⟩ := h.whole [] t ts rfl
    have hleft : withoutSpaces left = [] := hleft
    have hspaces := withoutSpaces_eq_nil_iff.mp hleft
    refine .cons (fun c hc => decide_eq_true (hspaces c hc))
      (isRun_iff.mpr ⟨h.ne_nil t ht, h.space_not_mem ht, h.isUniform t ht⟩) ?_
      (ih (h.tail hleft hright))
    intro c d hc hd
    simpa using h.not_joins hleft hright hc hd

/-! ### The symbols of an alternative -/

theorem toList_tokens (cs : List Char) : (tokens cs).map String.toList =
    segments (· = ' ') (fun c d => c.isUpper == d.isUpper) cs := by
  rw [tokens, List.map_map]
  simp

/-- A text has one segmentation, the symbols of the alternative. -/
theorem isSegmentation_iff : IsSegmentation cs ts ↔ ts = tokens cs := by
  constructor
  · intro h
    have hsegments := h.laidOut.segments_eq
    rw [← toList_tokens] at hsegments
    exact (List.map_injective_iff.mpr (fun _ _ => String.toList_inj.mp) hsegments).symm
  · rintro rfl
    refine isSegmentation_of_laidOut ?_
    rw [LaidOutIn, toList_tokens]
    exact laidOut_segments _ _ cs

/-- The symbols of an alternative are the only segmentation of its text. They are the same when
they are written in a row, and each is of the class of its first character. -/
theorem tokens_segment (cs : List Char) :
    (∀ ts, IsSegmentation cs ts ↔ ts = tokens cs) ∧
      tokens (unwords (tokens cs)).toList = tokens cs ∧
      ∀ t ∈ tokens cs, ∃ c rest, t.toList = c :: rest ∧ t.isNonterminal = c.isUpper := by
  have h : IsSegmentation cs (tokens cs) := isSegmentation_iff.mpr rfl
  have hsymbol : ∀ t ∈ tokens cs, t.toList ≠ [] ∧ ' ' ∉ t.toList ∧ t.IsUniform :=
    fun t ht => ⟨h.ne_nil t ht, h.space_not_mem ht, h.isUniform t ht⟩
  refine ⟨fun _ => isSegmentation_iff, tokens_unwords hsymbol, fun t ht => ?_⟩
  obtain ⟨c, rest, hchars⟩ := List.exists_cons_of_ne_nil (h.ne_nil t ht)
  exact ⟨c, rest, hchars, ((h.isUniform t ht).isUpper_eq (hchars ▸ List.mem_cons_self ..)).symm⟩

example : tokens "AB E+T  id".toList = ["AB", "E", "+", "T", "id"] := by decide

end ShiftReduce
