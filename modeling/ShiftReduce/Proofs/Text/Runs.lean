/-
The runs of a text are determined by how they stand in it.

A text is laid out in runs if these follow one another with nothing but separators between them,
and with at least one separator between two runs that would join. The segments of a text are runs
that it is laid out in, and there are no others.

* `IsRun` — texts that can be a run;
* `LaidOut` — texts that are laid out in given runs;
* `LaidOut.flatten`, `LaidOut.split` — what the runs hold, and where they stand;
* `laidOut_segments`, `LaidOut.segments_eq` — the segments of a text are the runs that it is laid
  out in.
-/
import ShiftReduce.Proofs.Text.Words

namespace ShiftReduce.Text

/-- Texts without separators in which all neighbours are joined. -/
structure IsRun (sep : Char → Bool) (joins : Char → Char → Bool) (run : List Char) : Prop where
  ne_nil : run ≠ []
  not_sep : ∀ c ∈ run, sep c = false
  joined : run.IsChain fun c d => joins c d = true

/-- Texts that are laid out in runs: separators may stand before, between and behind them, and some
do between two runs that would join. -/
inductive LaidOut (sep : Char → Bool) (joins : Char → Char → Bool) :
    List Char → List (List Char) → Prop
  | nil {gap : List Char} : (∀ c ∈ gap, sep c = true) → LaidOut sep joins gap []
  | cons {gap run rest : List Char} {runs : List (List Char)} : (∀ c ∈ gap, sep c = true) →
      IsRun sep joins run →
      (∀ c d, run.getLast? = some c → rest.head? = some d → sep d = true ∨ joins c d = false) →
      LaidOut sep joins rest runs → LaidOut sep joins (gap ++ (run ++ rest)) (run :: runs)

variable {sep : Char → Bool} {joins : Char → Char → Bool} {cs gap run : List Char}
  {runs : List (List Char)}

/-! ### From runs to segments -/

theorem segments_append_gap (hgap : ∀ c ∈ gap, sep c = true) (rest : List Char) :
    segments sep joins (gap ++ rest) = segments sep joins rest := by
  induction gap with
  | nil => rfl
  | cons c gap ih =>
    obtain ⟨hc, hgap⟩ := List.forall_mem_cons.mp hgap
    rw [List.cons_append, segments_cons_of_sep hc, ih hgap]

/-- A text that is laid out in runs has these as its segments. -/
theorem LaidOut.segments_eq (h : LaidOut sep joins cs runs) : segments sep joins cs = runs := by
  induction h with
  | @nil gap hgap =>
    have hnone : segments sep joins (gap ++ []) = segments sep joins [] :=
      segments_append_gap hgap []
    rwa [List.append_nil] at hnone
  | cons hgap hrun hend _ ih =>
    rw [segments_append_gap hgap, segments_append hrun.ne_nil hrun.not_sep hrun.joined hend, ih]

/-! ### From segments to runs -/

/-- A run comes before the others, and nothing before it. -/
theorem LaidOut.cons_run {rest : List Char} (hrun : IsRun sep joins run)
    (hend : ∀ c d, run.getLast? = some c → rest.head? = some d → sep d = true ∨ joins c d = false)
    (h : LaidOut sep joins rest runs) : LaidOut sep joins (run ++ rest) (run :: runs) :=
  show LaidOut sep joins ([] ++ (run ++ rest)) (run :: runs) from
    .cons (List.forall_mem_nil _) hrun hend h

theorem LaidOut.cons_sep {c : Char} (hc : sep c = true) (h : LaidOut sep joins cs runs) :
    LaidOut sep joins (c :: cs) runs := by
  cases h with
  | nil hgap => exact .nil (List.forall_mem_cons.mpr ⟨hc, hgap⟩)
  | @cons gap run rest _ hgap hrun hend hrest =>
    show LaidOut sep joins (c :: gap ++ (run ++ rest)) _
    exact .cons (List.forall_mem_cons.mpr ⟨hc, hgap⟩) hrun hend hrest

/-- A text that does not begin with a separator begins with its first run. -/
theorem LaidOut.exists_rest {c : Char} (hc : sep c = false)
    (h : LaidOut sep joins (c :: cs) (run :: runs)) :
    ∃ rest, c :: cs = run ++ rest ∧ IsRun sep joins run ∧
      (∀ c d, run.getLast? = some c → rest.head? = some d → sep d = true ∨ joins c d = false) ∧
      LaidOut sep joins rest runs := by
  generalize htext : c :: cs = text at h
  cases h with
  | @cons gap _ rest _ hgap hrun hend hrest =>
    cases gap with
    | nil => exact ⟨rest, rfl, hrun, hend, hrest⟩
    | cons d gap =>
      obtain ⟨rfl, _⟩ := List.cons.inj htext
      cases (hgap c (List.mem_cons_self ..)).symm.trans hc

/-- Every text is laid out in its segments. -/
theorem laidOut_segments (sep : Char → Bool) (joins : Char → Char → Bool) (cs : List Char) :
    LaidOut sep joins cs (segments sep joins cs) := by
  induction cs with
  | nil => exact .nil (List.forall_mem_nil _)
  | cons c cs ih =>
    rw [segments]
    split
    · next hc => exact ih.cons_sep hc
    · next hc =>
      have hc : sep c = false := by simpa using hc
      split
      · next hany =>
        -- The character joins the first run of the text behind it, which begins there.
        obtain ⟨d, cs', rfl, hboth⟩ := exists_cons_of_any_head? hany
        obtain ⟨hd, hjoin⟩ : sep d = false ∧ joins c d = true := by simpa using hboth
        obtain ⟨run, runs, hruns⟩ :
            ∃ run runs, segments sep joins (d :: cs') = (d :: run) :: runs :=
          exists_segments_cons hd cs'
        rw [hruns] at ih ⊢
        obtain ⟨rest, htext, hrun, hend, hrest⟩ := ih.exists_rest hd
        have hrun' : IsRun sep joins (c :: d :: run) :=
          ⟨List.cons_ne_nil _ _, List.forall_mem_cons.mpr ⟨hc, hrun.not_sep⟩,
            List.isChain_cons_cons.mpr ⟨hjoin, hrun.joined⟩⟩
        rw [htext]
        exact .cons_run hrun' hend hrest
      · next hnone =>
        have hrun : IsRun sep joins [c] :=
          ⟨List.cons_ne_nil _ _, List.forall_mem_singleton.mpr hc, .singleton c⟩
        refine .cons_run hrun ?_ ih
        intro e d he hd
        obtain rfl : c = e := Option.some.inj he
        simpa [hd, or_iff_not_imp_left] using hnone

/-! ### Where runs stand -/

theorem LaidOut.flatten (h : LaidOut sep joins cs runs) :
    runs.flatten = cs.filter fun c => !sep c := by
  rw [← h.segments_eq, flatten_segments]

/-- A text can be divided between any two of its runs. -/
theorem LaidOut.split {before behind : List (List Char)}
    (h : LaidOut sep joins cs (before ++ behind)) :
    ∃ left right, cs = left ++ right ∧ LaidOut sep joins left before ∧
      LaidOut sep joins right behind := by
  induction before generalizing cs with
  | nil => exact ⟨[], cs, rfl, .nil (List.forall_mem_nil _), h⟩
  | cons run before ih =>
    cases h with
    | @cons gap _ rest _ hgap hrun hend hrest =>
      obtain ⟨left, right, rfl, hleft, hright⟩ := ih hrest
      refine ⟨gap ++ (run ++ left), right, by simp, .cons hgap hrun ?_ hleft, hright⟩
      intro c d hc hd
      exact hend c d hc (by rw [List.head?_append, hd]; rfl)

end ShiftReduce.Text
