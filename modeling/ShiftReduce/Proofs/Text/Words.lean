/-
Words put in a row and read back.

* `append_eq_append_cons_cases`, `mem_intercalate` — members of lists in a row;
* `segments_append`, `segments_append_sep` — where runs end;
* `isChain_of_mem_segments` — neighbours in a run are neighbours in the text;
* `toList_unwords`, `unwords_map_unwords` — what words in a row are, and rows of words in a row;
* `segments_unwords` — runs in a row are found as they were;
* `IsWord` — a text that is not empty and has no blanks;
* `wordsOf_unwords` — words in a row are read back as they were;
* `isWord_of_mem_words` — what is read are words;
* `mem_unwords` — what is in words in a row;
* `trim_unwords` — words in a row begin and end with no blank.
-/
import ShiftReduce.Text.Segment
import Mathlib.Data.List.Chain

namespace ShiftReduce

/-- A member of two lists one after the other is a member of one of them. -/
theorem append_eq_append_cons_cases {α : Type} {xs ys left right : List α} {x : α}
    (h : xs ++ ys = left ++ x :: right) :
    (∃ mid, xs = left ++ x :: mid ∧ right = mid ++ ys) ∨
      ∃ mid, ys = mid ++ x :: right ∧ left = xs ++ mid := by
  rcases List.append_eq_append_iff.mp h with ⟨mid, rfl, hys⟩ | ⟨mid, rfl, hright⟩
  · exact .inr ⟨mid, hys, rfl⟩
  · cases mid with
    | nil => exact .inr ⟨[], hright.symm, by rw [List.append_nil, List.append_nil]⟩
    | cons y mid =>
      obtain ⟨rfl, rfl⟩ := List.cons.inj hright
      exact .inl ⟨mid, rfl, rfl⟩

/-- A member of lists put in a row is a member of one of them or of what stands between them. -/
theorem mem_intercalate {α : Type} {sep : List α} {lists : List (List α)} {x : α}
    (h : x ∈ sep.intercalate lists) : x ∈ sep ∨ ∃ l ∈ lists, x ∈ l := by
  induction lists with
  | nil => cases h
  | cons first lists ih =>
    cases lists with
    | nil =>
      rw [List.intercalate_singleton] at h
      exact .inr ⟨first, List.mem_cons_self .., h⟩
    | cons second lists =>
      rw [List.intercalate_cons_cons, List.mem_append, List.mem_append] at h
      rcases h with (h | h) | h
      · exact .inr ⟨first, List.mem_cons_self .., h⟩
      · exact .inl h
      · exact (ih h).imp_right fun ⟨l, hl, hx⟩ => ⟨l, List.mem_cons_of_mem first hl, hx⟩

namespace Text

/-- A property of all characters of a text is decided by looking at these, and not by going through
all characters there are. -/
instance (priority := 2000) decidableForallMemChars {p : Char → Prop} [DecidablePred p]
    (cs : List Char) : Decidable (∀ c ∈ cs, p c) := List.decidableBAll p cs

/-- Texts that are one word. -/
def IsWord (s : String) : Prop := s.toList ≠ [] ∧ ∀ c ∈ s.toList, isBlank c = false

instance (s : String) : Decidable (IsWord s) :=
  inferInstanceAs (Decidable (s.toList ≠ [] ∧ ∀ c ∈ s.toList, isBlank c = false))

/-! ### Runs -/

section Segments

variable {sep : Char → Bool} {joins : Char → Char → Bool} {c : Char} {cs w rest : List Char}

theorem segments_cons_of_sep (hc : sep c = true) :
    segments sep joins (c :: cs) = segments sep joins cs := by
  rw [segments, if_pos hc]

/-- A run ends where a separator comes, a character that does not join its last one, or the end of
the text. -/
theorem segments_append (hne : w ≠ []) (hw : ∀ c ∈ w, sep c = false)
    (hjoins : w.IsChain fun c d => joins c d = true)
    (hend : ∀ c d, w.getLast? = some c → rest.head? = some d → sep d = true ∨ joins c d = false) :
    segments sep joins (w ++ rest) = w :: segments sep joins rest := by
  induction w with
  | nil => exact absurd rfl hne
  | cons c w ih =>
    have hc : sep c = false := hw c (List.mem_cons_self ..)
    rw [List.cons_append, segments, hc, if_neg Bool.false_ne_true]
    cases w with
    | nil =>
      have hhead : (rest.head?.any fun d => !sep d && joins c d) = false := by
        cases rest with
        | nil => rfl
        | cons d ds => rcases hend c d rfl rfl with hd | hd <;> simp [hd]
      rw [List.nil_append, hhead, if_neg Bool.false_ne_true]
    | cons d w =>
      obtain ⟨hcd, hchain⟩ := List.isChain_cons_cons.mp hjoins
      have hd : sep d = false := hw d (by simp)
      have hhead : ((d :: w ++ rest).head?.any fun d => !sep d && joins c d) = true := by
        simp [hd, hcd]
      rw [hhead, if_pos rfl, ih (by simp) (fun e he => hw e (List.mem_cons_of_mem c he)) hchain]
      · rfl
      · exact fun e => hend e

theorem exists_cons_of_any_head? {p : Char → Bool} (h : cs.head?.any p = true) :
    ∃ d cs', cs = d :: cs' ∧ p d = true := by
  cases cs with
  | nil => cases h
  | cons d cs' => exact ⟨d, cs', rfl, h⟩

theorem segments_run (hne : w ≠ []) (hw : ∀ c ∈ w, sep c = false)
    (hjoins : w.IsChain fun c d => joins c d = true) : segments sep joins w = [w] := by
  have hrun : segments sep joins (w ++ []) = w :: segments sep joins [] :=
    segments_append hne hw hjoins fun _ _ _ hd => by cases hd
  rw [List.append_nil] at hrun
  exact hrun

/-- A run begins with the character that it is found at. -/
theorem exists_segments_cons (hc : sep c = false) (cs : List Char) :
    ∃ run runs, segments sep joins (c :: cs) = (c :: run) :: runs := by
  rw [segments, hc, if_neg Bool.false_ne_true]
  split
  · cases segments sep joins cs with
    | nil => exact ⟨[], [], rfl⟩
    | cons run runs => exact ⟨run, runs, rfl⟩
  · exact ⟨[], _, rfl⟩

/-- No run goes over a separator. -/
theorem segments_append_sep (hc : sep c = true) :
    segments sep joins (cs ++ c :: rest) = segments sep joins cs ++ segments sep joins rest := by
  induction cs with
  | nil => exact segments_cons_of_sep hc
  | cons d cs ih =>
    have hhead : ((cs ++ c :: rest).head?.any fun e => !sep e && joins d e) =
        cs.head?.any fun e => !sep e && joins d e := by
      cases cs with
      | nil => simp [hc]
      | cons e cs => rfl
    rw [List.cons_append, segments, segments, hhead, ih]
    split
    · rfl
    · split
      · next hany =>
        -- The run that the character joins is the first of those before the separator.
        obtain ⟨e, cs', rfl, hboth⟩ := exists_cons_of_any_head? hany
        obtain ⟨he, _⟩ : sep e = false ∧ joins d e = true := by simpa using hboth
        obtain ⟨run, runs, hruns⟩ :
            ∃ run runs, segments sep joins (e :: cs') = (e :: run) :: runs :=
          exists_segments_cons he cs'
        rw [hruns]
        rfl
      · rfl

theorem not_sep_of_mem_segments {run : List Char} (h : run ∈ segments sep joins cs) :
    ∀ c ∈ run, sep c = false := by
  intro c hc
  have hflat := List.mem_flatten_of_mem h hc
  rw [flatten_segments, List.mem_filter] at hflat
  simpa using hflat.2

/-- Neighbours in a run are neighbours in the text that are joined. -/
theorem isChain_of_mem_segments {R : Char → Char → Prop}
    (hcs : cs.IsChain fun c d => joins c d = true → R c d) {run : List Char}
    (h : run ∈ segments sep joins cs) : run.IsChain R := by
  induction cs generalizing run with
  | nil => cases h
  | cons c cs ih =>
    obtain ⟨hhead, hcs⟩ := List.isChain_cons.mp hcs
    rw [segments] at h
    split at h
    · exact ih hcs h
    · split at h
      · next hany =>
        obtain ⟨d, cs', rfl, hboth⟩ := exists_cons_of_any_head? hany
        obtain ⟨hd, hjoin⟩ : sep d = false ∧ joins c d = true := by simpa using hboth
        obtain ⟨first, runs, hruns⟩ :
            ∃ run runs, segments sep joins (d :: cs') = (d :: run) :: runs :=
          exists_segments_cons hd cs'
        rw [hruns] at h ih
        -- The character comes before the first of the runs behind it.
        rcases List.mem_cons.mp h with rfl | h
        · exact List.isChain_cons_cons.mpr
            ⟨hhead d rfl hjoin, ih hcs (List.mem_cons_self ..)⟩
        · exact ih hcs (List.mem_cons_of_mem _ h)
      · rcases List.mem_cons.mp h with rfl | h
        · exact .singleton c
        · exact ih hcs h

end Segments

theorem toList_unwords_cons (w : String) {ws : List String} (h : ws ≠ []) :
    (unwords (w :: ws)).toList = w.toList ++ ' ' :: (unwords ws).toList := by
  have hspace : (" " : String).toList = [' '] := rfl
  rw [unwords, unwords, String.intercalate_cons_of_ne_nil h, String.toList_append,
    String.toList_append, hspace, List.append_assoc, List.singleton_append]

theorem unwords_singleton (w : String) : unwords [w] = w := String.intercalate_singleton

theorem toList_unwords (w : String) (ws : List String) :
    (unwords (w :: ws)).toList = w.toList ++ ws.flatMap fun v => ' ' :: v.toList := by
  induction ws generalizing w with
  | nil => rw [unwords_singleton, List.flatMap_nil, List.append_nil]
  | cons v ws ih =>
    rw [toList_unwords_cons w (List.cons_ne_nil v ws), ih v, List.flatMap_cons, List.cons_append]

/-- Words put in rows, and the rows in a row. -/
theorem unwords_map_unwords {α : Type} {f : α → List String} {xs : List α}
    (h : ∀ x ∈ xs, f x ≠ []) :
    unwords (xs.map fun x => unwords (f x)) = unwords (xs.flatMap f) := by
  induction xs with
  | nil => rfl
  | cons x xs ih =>
    obtain ⟨hx, hxs⟩ := List.forall_mem_cons.mp h
    by_cases hnil : xs = []
    · subst hnil
      rw [List.map_singleton, unwords_singleton, List.flatMap_singleton]
    · have hne : xs.flatMap f ≠ [] := by
        obtain ⟨y, ys, rfl⟩ := List.exists_cons_of_ne_nil hnil
        exact List.append_ne_nil_of_left_ne_nil (hxs y (List.mem_cons_self ..)) _
      have hrow := ih hxs
      unfold unwords at hrow ⊢
      rw [List.map_cons, String.intercalate_cons_of_ne_nil (mt List.map_eq_nil_iff.mp hnil), hrow,
        List.flatMap_cons, String.intercalate_append_of_ne_nil hx hne]

theorem toList_unwords_ne_nil {ws : List String} (hne : ws ≠ []) (h : ∀ w ∈ ws, IsWord w) :
    (unwords ws).toList ≠ [] := by
  obtain ⟨w, ws, rfl⟩ := List.exists_cons_of_ne_nil hne
  rw [toList_unwords]
  exact List.append_ne_nil_of_left_ne_nil (h w (List.mem_cons_self ..)).1 _

/-- Runs in a row, with spaces that separate them, are found as they were. -/
theorem segments_unwords {sep : Char → Bool} {joins : Char → Char → Bool} (hspace : sep ' ' = true)
    {ws : List String} (h : ∀ w ∈ ws, w.toList ≠ [] ∧ (∀ c ∈ w.toList, sep c = false) ∧
      w.toList.IsChain fun c d => joins c d = true) :
    segments sep joins (unwords ws).toList = ws.map String.toList := by
  induction ws with
  | nil => rfl
  | cons w ws ih =>
    obtain ⟨hne, hw, hjoins⟩ := h w (List.mem_cons_self ..)
    by_cases hws : ws = []
    · subst hws
      rw [unwords_singleton, segments_run hne hw hjoins]
      rfl
    · rw [toList_unwords_cons w hws, segments_append hne hw hjoins, segments_cons_of_sep hspace,
        ih fun v hv => h v (List.mem_cons_of_mem w hv), List.map_cons]
      intro c d _ hd
      obtain rfl := Option.some.inj hd
      exact .inl hspace

/-! ### Words -/

theorem isChain_true (cs : List Char) : cs.IsChain fun _ _ => true = true :=
  (List.pairwise_of_forall fun _ _ => rfl).isChain

/-- Words in a row are read back as they were. -/
theorem wordsOf_unwords {ws : List String} (h : ∀ w ∈ ws, IsWord w) :
    wordsOf (unwords ws) = ws := by
  have hwords : segments isBlank (fun _ _ => true) (unwords ws).toList = ws.map String.toList :=
    segments_unwords isBlank_space fun w hw => ⟨(h w hw).1, (h w hw).2, isChain_true _⟩
  rw [wordsOf, words, hwords, List.map_map]
  simp

theorem isWord_of_mem_words {cs w : List Char} (h : w ∈ words cs) :
    w ≠ [] ∧ ∀ c ∈ w, isBlank c = false := ⟨ne_nil_of_mem_segments h, not_sep_of_mem_segments h⟩

/-- What is in words in a row is in one of them or between two. -/
theorem mem_unwords {ws : List String} {c : Char} (hc : c ∈ (unwords ws).toList) :
    c = ' ' ∨ ∃ w ∈ ws, c ∈ w.toList := by
  rw [unwords, String.toList_intercalate] at hc
  rcases mem_intercalate hc with hc | ⟨cs, hcs, hc⟩
  · exact .inl (List.mem_singleton.mp hc)
  · obtain ⟨w, hw, rfl⟩ := List.mem_map.mp hcs
    exact .inr ⟨w, hw, hc⟩

/-- The only blanks of words in a row are the spaces between them. -/
theorem isBlank_of_mem_unwords {ws : List String} (h : ∀ w ∈ ws, IsWord w) {c : Char}
    (hc : c ∈ (unwords ws).toList) : c = ' ' ∨ isBlank c = false :=
  (mem_unwords hc).imp_right fun ⟨w, hw, hcw⟩ => (h w hw).2 c hcw

/-! ### Trimming -/

theorem trim_cons_of_isBlank {c : Char} (hc : isBlank c = true) (cs : List Char) :
    trim (c :: cs) = trim cs := by
  rw [trim, trimStart, List.dropWhile_cons_of_pos hc]
  rfl

theorem trimEnd_append_of_isBlank (cs : List Char) {c : Char} (hc : isBlank c = true) :
    trimEnd (cs ++ [c]) = trimEnd cs := by
  induction cs with
  | nil => simp [trimEnd, hc]
  | cons d ds ih => rw [List.cons_append, trimEnd, trimEnd, ih]

theorem trim_append_of_isBlank (cs : List Char) {c : Char} (hc : isBlank c = true) :
    trim (cs ++ [c]) = trim cs := by
  rw [trim, trim, trimStart, trimStart, List.dropWhile_append]
  split
  · next hnil =>
    rw [List.dropWhile_cons_of_pos hc, List.isEmpty_iff.mp hnil]
    rfl
  · exact trimEnd_append_of_isBlank _ hc

theorem trimEnd_append (cs : List Char) {ds : List Char} (h : trimEnd ds ≠ []) :
    trimEnd (cs ++ ds) = cs ++ trimEnd ds := by
  induction cs with
  | nil => rfl
  | cons c cs ih =>
    rw [List.cons_append, trimEnd, ih]
    obtain ⟨e, es, hes⟩ := List.exists_cons_of_ne_nil (List.append_ne_nil_of_right_ne_nil cs h)
    rw [hes, List.cons_append, hes]

/-- Only blanks are left out at the end of a text. -/
theorem exists_eq_trimEnd_append (cs : List Char) :
    ∃ gap, (∀ c ∈ gap, isBlank c = true) ∧ cs = trimEnd cs ++ gap := by
  induction cs with
  | nil => exact ⟨[], List.forall_mem_nil _, rfl⟩
  | cons c cs ih =>
    obtain ⟨gap, hgap, hcs⟩ := ih
    rw [trimEnd]
    split
    · next hnil =>
      rw [hnil, List.nil_append] at hcs
      subst hcs
      split
      · next hc => exact ⟨c :: cs, List.forall_mem_cons.mpr ⟨hc, hgap⟩, rfl⟩
      · exact ⟨cs, hgap, rfl⟩
    · next d ds hds =>
      rw [hds] at hcs
      exact ⟨gap, hgap, congrArg (c :: ·) hcs⟩

theorem mem_of_mem_trimEnd {cs : List Char} {c : Char} (h : c ∈ trimEnd cs) : c ∈ cs := by
  obtain ⟨gap, _, hcs⟩ := exists_eq_trimEnd_append cs
  rw [hcs]
  exact List.mem_append_left gap h

theorem trimEnd_of_isWord {w : String} (h : IsWord w) : trimEnd w.toList = w.toList := by
  obtain ⟨cs, c, hcs⟩ := w.toList.eq_nil_or_concat'.resolve_left h.1
  rw [hcs]
  exact trimEnd_append_of_not_isBlank cs (h.2 c (by simp [hcs]))

/-- Words in a row begin and end with no blank. -/
theorem trim_unwords {ws : List String} (h : ∀ w ∈ ws, IsWord w) :
    trim (unwords ws).toList = (unwords ws).toList := by
  have hend : trimEnd (unwords ws).toList = (unwords ws).toList := by
    induction ws with
    | nil => rfl
    | cons w ws ih =>
      obtain ⟨hw, hws⟩ := List.forall_mem_cons.mp h
      by_cases hnil : ws = []
      · subst hnil
        rw [unwords_singleton]
        exact trimEnd_of_isWord hw
      · have hne : trimEnd (unwords ws).toList ≠ [] := by
          rw [ih hws]
          exact toList_unwords_ne_nil hnil hws
        have hmark : trimEnd (' ' :: (unwords ws).toList) = ' ' :: trimEnd (unwords ws).toList :=
          trimEnd_append [' '] hne
        rw [toList_unwords_cons w hnil, trimEnd_append _ (hmark ▸ List.cons_ne_nil _ _), hmark,
          ih hws]
  rw [trim, trimStart]
  cases ws with
  | nil => rfl
  | cons w ws =>
    have hrest := toList_unwords w ws
    obtain ⟨c, cs, hcs⟩ := List.exists_cons_of_ne_nil (h w (List.mem_cons_self ..)).1
    have hc : ¬isBlank c = true := by
      rw [(h w (List.mem_cons_self ..)).2 c (by simp [hcs])]
      exact Bool.false_ne_true
    rw [hrest, hcs, List.cons_append, List.dropWhile_cons_of_neg hc, ← List.cons_append, ← hcs,
      ← hrest]
    exact hend

end Text

end ShiftReduce
