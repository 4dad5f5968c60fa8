/-
Columns, and cells read back from them.

A column begins where those before it end, each with two spaces behind it. Blanks at the end of a
line are left out, and nothing of a cell is lost by that: what stands at a column is the cell, less
some of the spaces that fill it up.

* `columnAt` — what stands at a column of a line;
* `columnAt_intercalate`, `columnAt_append` — parts in a row, and what is cut off at the end;
* `EndsVisibly` — a text whose last character is no blank;
* `showsRow_columnLine`, `columnAt_dashLine` — what stands at the columns of a row's line, and of
  the line of dashes;
* `exists_columnWidths` — a column is as wide as its longest cell;
* `exists_columns` — rows that are no shorter than their header fit into columns;
* `columns_align` — rows in columns are read back as they were.
-/
import ShiftReduce.Proofs.Outcome
import ShiftReduce.Proofs.Text.Words
import ShiftReduce.Text.Columns
import Mathlib.Data.List.DropRight
import Mathlib.Data.List.Forall2
import Mathlib.Order.Bounds.Basic

namespace ShiftReduce.Text

/-! ### Columns of a line -/

/-- Where a column begins: behind those before it, and two spaces behind each of them. -/
def columnStart : List Nat → Nat → Nat
  | w :: widths, j + 1 => w + 2 + columnStart widths j
  | _, _ => 0

/-- What stands at a column of a line, which may end before it. -/
def columnAt (widths : List Nat) (j : Nat) (line : List Char) : List Char :=
  (line.drop (columnStart widths j)).take (widths.getD j 0)

section ColumnAt

variable {widths : List Nat} {j : Nat}

@[simp]
theorem columnAt_zero {w : Nat} {line : List Char} :
    columnAt (w :: widths) 0 line = line.take w := by
  simp [columnAt, columnStart]

theorem columnAt_succ {w : Nat} {line : List Char} :
    columnAt (w :: widths) (j + 1) line = columnAt widths j (line.drop (w + 2)) := by
  simp [columnAt, columnStart]

/-- Parts with two spaces between them stand at the columns of their lengths. -/
theorem columnAt_intercalate {parts : List (List Char)} (hlength : parts.map List.length = widths)
    {part : List Char} (h : parts[j]? = some part) :
    columnAt widths j ([' ', ' '].intercalate parts) = part := by
  subst hlength
  induction parts generalizing j with
  | nil => cases h
  | cons first parts ih =>
    rw [List.map_cons]
    cases j with
    | zero =>
      obtain rfl : first = part := Option.some.inj h
      rw [columnAt_zero]
      cases parts with
      | nil => rw [List.intercalate_singleton, List.take_length]
      | cons second parts =>
        rw [List.intercalate_cons_cons, List.append_assoc, List.take_left' rfl]
    | succ j =>
      rw [List.getElem?_cons_succ] at h
      cases parts with
      | nil => cases h
      | cons second parts =>
        have hgap : (first ++ [' ', ' ']).length = first.length + 2 := List.length_append
        rw [columnAt_succ, List.intercalate_cons_cons, List.drop_left' hgap]
        exact ih h

/-- What is added at the end of a line adds to the end of what stands at a column. -/
theorem columnAt_append (widths : List Nat) (j : Nat) (line gap : List Char) :
    ∃ rest, (∀ c ∈ rest, c ∈ gap) ∧
      columnAt widths j (line ++ gap) = columnAt widths j line ++ rest := by
  refine ⟨(gap.drop (columnStart widths j - line.length)).take
    (widths.getD j 0 - (line.drop (columnStart widths j)).length), ?_, ?_⟩
  · exact fun c hc => List.mem_of_mem_drop (List.mem_of_mem_take hc)
  · rw [columnAt, columnAt, List.drop_append, List.take_append]

end ColumnAt

/-! ### Cells -/

/-- The last character of a text, if there is one, is no blank. -/
def EndsVisibly (cs : List Char) : Prop := ∀ c ∈ cs.getLast?, isBlank c = false

instance (cs : List Char) : Decidable (EndsVisibly cs) := cs.getLast?.decidableForallMem

theorem endsVisibly_concat {cs : List Char} {c : Char} :
    EndsVisibly (cs ++ [c]) ↔ isBlank c = false := by
  rw [EndsVisibly, List.getLast?_concat]
  exact ⟨fun h => h c rfl, fun h d hd => Option.some.inj hd ▸ h⟩

/-- Nothing at the end of a text that ends visibly is blank. -/
theorem EndsVisibly.eq_nil_of_blank {cs ds : List Char} (h : EndsVisibly (cs ++ ds))
    (hblank : ∀ c ∈ ds, isBlank c = true) : ds = [] := by
  rcases ds.eq_nil_or_concat' with hnil | ⟨init, c, rfl⟩
  · exact hnil
  · rw [← List.append_assoc, endsVisibly_concat, hblank c (by simp)] at h
    cases h

theorem endsVisibly_trimEnd (cs : List Char) : EndsVisibly (trimEnd cs) := by
  induction cs using List.reverseRecOn with
  | nil => exact fun _ hc => nomatch hc
  | append_singleton cs c ih =>
    cases hc : isBlank c with
    | true => exact trimEnd_append_of_isBlank cs hc ▸ ih
    | false =>
      rw [trimEnd_append_of_not_isBlank cs hc]
      exact endsVisibly_concat.mpr hc

theorem EndsVisibly.rdropWhile_eq {cs : List Char} (h : EndsVisibly cs) :
    cs.rdropWhile (· == ' ') = cs := by
  rcases cs.eq_nil_or_concat' with rfl | ⟨init, c, rfl⟩
  · rfl
  · refine List.rdropWhile_concat_neg _ _ _ fun hc => ?_
    rw [endsVisibly_concat, eq_of_beq hc, isBlank_space] at h
    cases h

theorem rdropWhile_append_spaces (cs : List Char) (n : Nat) :
    (cs ++ List.replicate n ' ').rdropWhile (· == ' ') = cs.rdropWhile (· == ' ') := by
  induction n with
  | zero => rw [List.replicate_zero, List.append_nil]
  | succ n ih =>
    rw [List.replicate_succ', ← List.append_assoc, List.rdropWhile_concat_pos _ _ _ rfl, ih]

/-- A cell with spaces behind it is read back from what is left when blanks at its end are cut
off. -/
theorem EndsVisibly.rdropWhile_of_append_eq {cell left cut : List Char} {n : Nat}
    (h : EndsVisibly cell) (heq : cell ++ List.replicate n ' ' = left ++ cut)
    (hcut : ∀ c ∈ cut, isBlank c = true) : left.rdropWhile (· == ' ') = cell := by
  rcases List.append_eq_append_iff.mp heq with ⟨spaces, rfl, hspaces⟩ | ⟨visible, rfl, rfl⟩
  · obtain ⟨_, hall, _⟩ := List.append_eq_replicate_iff.mp hspaces.symm
    rw [hall, rdropWhile_append_spaces, h.rdropWhile_eq]
  · obtain rfl : visible = [] :=
      h.eq_nil_of_blank fun c hc => hcut c (List.mem_append_left _ hc)
    rw [List.append_nil] at h ⊢
    exact h.rdropWhile_eq

/-! ### Rows -/

/-- The cells of a row, each padded to the width of its column. -/
def paddedCells (widths : List Nat) (row : List String) : List (List Char) :=
  (List.zipWith padEnd widths row).map String.toList

theorem toList_padEnd (w : Nat) (s : String) :
    (padEnd w s).toList = s.toList ++ List.replicate (w - s.length) ' ' := by
  rw [padEnd, String.toList_append, String.toList_ofList]

theorem toList_columnLine (widths : List Nat) (row : List String) :
    (columnLine widths row).toList = trimEnd ([' ', ' '].intercalate (paddedCells widths row)) := by
  rw [columnLine, String.toList_ofList, String.toList_intercalate]
  rfl

/-- A row fits its columns. -/
abbrev Fits (widths : List Nat) (row : List String) : Prop :=
  List.Forall₂ (fun w cell => cell.length ≤ w) widths row

theorem map_length_paddedCells {widths : List Nat} {row : List String} (h : Fits widths row) :
    (paddedCells widths row).map List.length = widths := by
  induction h with
  | nil => rfl
  | @cons w cell widths row hcell _ ih =>
    have hpadded : (padEnd w cell).toList.length = w := by
      rw [toList_padEnd, List.length_append, List.length_replicate, String.length_toList]
      omega
    rw [paddedCells, List.zipWith_cons_cons, List.map_cons, List.map_cons, hpadded]
    exact congrArg (w :: ·) ih

theorem getElem?_paddedCells {widths : List Nat} {row : List String} (h : Fits widths row) {j : Nat}
    {cell : String} (hcell : row[j]? = some cell) :
    ∃ n, (paddedCells widths row)[j]? = some (cell.toList ++ List.replicate n ' ') := by
  obtain ⟨w, hw⟩ : ∃ w, widths[j]? = some w := by
    obtain ⟨hj, _⟩ := List.getElem?_eq_some_iff.mp hcell
    exact ⟨_, List.getElem?_eq_getElem (h.length_eq ▸ hj)⟩
  refine ⟨w - cell.length, ?_⟩
  rw [paddedCells, List.getElem?_map, List.getElem?_zipWith, hw, hcell, ← toList_padEnd]
  rfl

/-- A line shows a row if each of its cells stands at its column, up to spaces behind it, and
nothing blank stands at the end. -/
structure ShowsRow (widths : List Nat) (row : List String) (line : List Char) : Prop where
  cell : ∀ j cell, row[j]? = some cell →
    (columnAt widths j line).rdropWhile (· == ' ') = cell.toList
  ends : EndsVisibly line

theorem showsRow_columnLine {widths : List Nat} {row : List String} (h : Fits widths row)
    (hends : ∀ cell ∈ row, EndsVisibly cell.toList) :
    ShowsRow widths row (columnLine widths row).toList := by
  rw [toList_columnLine]
  refine ⟨fun j cell hcell => ?_, endsVisibly_trimEnd _⟩
  obtain ⟨n, hpadded⟩ := getElem?_paddedCells h hcell
  -- What stands at the column before the line is trimmed is what is left of it and blanks.
  obtain ⟨gap, hgap, hline⟩ :=
    exists_eq_trimEnd_append ([' ', ' '].intercalate (paddedCells widths row))
  obtain ⟨cut, hcut, hleft⟩ := columnAt_append widths j
    (trimEnd ([' ', ' '].intercalate (paddedCells widths row))) gap
  rw [← hline, columnAt_intercalate (map_length_paddedCells h) hpadded] at hleft
  exact (hends cell (List.mem_of_getElem? hcell)).rdropWhile_of_append_eq hleft
    fun c hc => hgap c (hcut c hc)

theorem columnAt_dashLine {widths : List Nat} {j w : Nat} (h : widths[j]? = some w) :
    columnAt widths j (dashLine widths).toList = List.replicate w '-' := by
  have hlength : (widths.map fun w => List.replicate w '-').map List.length = widths := by
    simp [Function.comp_def]
  have hdashes : (widths.map fun w => List.replicate w '-')[j]? = some (List.replicate w '-') := by
    rw [List.getElem?_map, h]
    rfl
  rw [dashLine, String.toList_intercalate, List.map_map]
  simpa [Function.comp_def] using columnAt_intercalate hlength hdashes

/-! ### Widths -/

/-- The lengths of the cells in a column. -/
def cellLengths (j : Nat) (rows : List (List String)) : Set Nat :=
  {n | ∃ row ∈ rows, ∃ cell, row[j]? = some cell ∧ cell.length = n}

theorem cellLengths_cons {j : Nat} {row : List String} {rows : List (List String)} {cell : String}
    (h : row[j]? = some cell) :
    cellLengths j (row :: rows) = {cell.length} ∪ cellLengths j rows := by
  ext n
  simp [cellLengths, h, eq_comm]

theorem cellLengths_nil {j : Nat} : cellLengths j [] = ∅ := by simp [cellLengths]

/-- A column that is in all rows is as wide as its longest cell. -/
theorem exists_columnWidth {j : Nat} {row : List String} {rows : List (List String)}
    (hrow : j < row.length) (hrows : ∀ r ∈ rows, j < r.length) :
    ∃ width, columnWidth? j (row :: rows) = some width ∧
      IsGreatest (cellLengths j (row :: rows)) width := by
  have hcell : row[j]? = some row[j] := List.getElem?_eq_getElem hrow
  rw [columnWidth?, hcell, cellLengths_cons hcell]
  induction rows generalizing row with
  | nil =>
    refine ⟨row[j].length, congrArg some (Nat.max_zero _), ?_⟩
    rw [cellLengths_nil, Set.union_empty]
    exact isGreatest_singleton
  | cons next rows ih =>
    obtain ⟨hnext, hrows⟩ := List.forall_mem_cons.mp hrows
    have hnextCell : next[j]? = some next[j] := List.getElem?_eq_getElem hnext
    obtain ⟨width, hwidth, hgreatest⟩ := ih hnext hrows hnextCell
    rw [columnWidth?, hnextCell, cellLengths_cons hnextCell, hwidth]
    exact ⟨max row[j].length width, rfl, isGreatest_singleton.union hgreatest⟩

/-- The widths of the columns of rows that are no shorter than their header. -/
theorem exists_columnWidths {header : List String} {rows : List (List String)}
    (h : ∀ row ∈ rows, header.length ≤ row.length) :
    ∃ widths, columnWidths? (header :: rows) = some widths ∧ widths.length = header.length ∧
      ∀ j w, widths[j]? = some w → IsGreatest (cellLengths j (header :: rows)) w := by
  have hwidth : ∀ j, j < header.length → ∃ w, columnWidth? j (header :: rows) = some w ∧
      IsGreatest (cellLengths j (header :: rows)) w := fun j hj =>
    exists_columnWidth hj fun row hrow => Nat.lt_of_lt_of_le hj (h row hrow)
  choose! width hwidth using hwidth
  refine ⟨(List.range header.length).map width, ?_, by simp, fun j w hw => ?_⟩
  · exact mapM_option_eq_map fun j hj => (hwidth j (List.mem_range.mp hj)).1
  · obtain ⟨i, hi, rfl⟩ := Option.map_eq_some_iff.mp (List.getElem?_map .. ▸ hw)
    obtain ⟨hj, rfl⟩ := List.getElem?_eq_some_iff.mp hi
    rw [List.length_range] at hj
    rw [List.getElem_range]
    exact (hwidth j hj).2

/-! ### Lines -/

/-- The lines of a text: what stands between its line breaks. -/
def linesOf (text : String) : List (List Char) := text.toList.splitOn '\n'

theorem linesOf_intercalate {lines : List String} (hne : lines ≠ [])
    (h : ∀ line ∈ lines, '\n' ∉ line.toList) :
    linesOf ("\n".intercalate lines) = lines.map String.toList := by
  rw [linesOf, String.toList_intercalate]
  refine List.splitOn_intercalate '\n' (fun cs hcs => ?_) (mt List.map_eq_nil_iff.mp hne)
  obtain ⟨line, hline, rfl⟩ := List.mem_map.mp hcs
  exact h line hline

theorem lineBreak_not_mem_columnLine {widths : List Nat} {row : List String}
    (h : ∀ cell ∈ row, '\n' ∉ cell.toList) : '\n' ∉ (columnLine widths row).toList := by
  intro hbreak
  rw [toList_columnLine] at hbreak
  rcases mem_intercalate (mem_of_mem_trimEnd hbreak) with hsep | ⟨cs, hcs, hbreak⟩
  · exact absurd hsep (by decide)
  · rw [paddedCells, ← List.map_uncurry_zip_eq_zipWith, List.map_map] at hcs
    obtain ⟨⟨w, cell⟩, hmem, rfl⟩ := List.mem_map.mp hcs
    rw [Function.comp_apply, Function.uncurry_apply_pair, toList_padEnd, List.mem_append] at hbreak
    rcases hbreak with hbreak | hspace
    · exact h cell (List.of_mem_zip hmem).2 hbreak
    · exact absurd (List.eq_of_mem_replicate hspace) (by decide)

theorem lineBreak_not_mem_dashLine (widths : List Nat) : '\n' ∉ (dashLine widths).toList := by
  intro hbreak
  rw [dashLine, String.toList_intercalate, List.map_map] at hbreak
  rcases mem_intercalate hbreak with hsep | ⟨cs, hcs, hbreak⟩
  · exact absurd hsep (by decide)
  · obtain ⟨w, _, rfl⟩ := List.mem_map.mp hcs
    rw [Function.comp_apply, String.toList_ofList] at hbreak
    exact absurd (List.eq_of_mem_replicate hbreak) (by decide)

/-! ### Rows in columns -/

/-- Rows that are no shorter than their header fit into columns. -/
theorem exists_columns {header : List String} {rows : List (List String)}
    (h : ∀ row ∈ rows, header.length ≤ row.length) :
    ∃ text, columns? (header :: rows) = some text := by
  obtain ⟨widths, hwidths, _⟩ := exists_columnWidths h
  exact ⟨_, by rw [columns?, hwidths]; rfl⟩

/-- A text shows rows in columns: each column is as wide as its longest cell, each row has a line of
its own, and below the first of them is a line with as many dashes at each column as the column is
wide. -/
structure IsAligned (rows : List (List String)) (widths : List Nat) (text : String) : Prop where
  length_row : ∀ row ∈ rows, row.length = widths.length
  width : ∀ j w, widths[j]? = some w → IsGreatest (cellLengths j rows) w
  lines : ∃ rowLines dashes, linesOf text = rowLines.insertIdx 1 dashes ∧
    List.Forall₂ (ShowsRow widths) rows rowLines ∧
    ∀ j w, widths[j]? = some w → columnAt widths j dashes = List.replicate w '-'

theorem fits_of_isGreatest {widths : List Nat} {rows : List (List String)}
    (hwidth : ∀ j w, widths[j]? = some w → IsGreatest (cellLengths j rows) w) {row : List String}
    (hrow : row ∈ rows) (hlength : row.length = widths.length) : Fits widths row := by
  refine List.forall₂_iff_get.mpr ⟨hlength.symm, fun j hw hcell => ?_⟩
  exact (hwidth j _ (List.getElem?_eq_getElem hw)).2
    ⟨row, hrow, _, List.getElem?_eq_getElem hcell, rfl⟩

/-- Rows that are as long as their header, with cells in one line that end visibly, are put into
columns and can be read back from them. -/
theorem columns_align {header : List String} {rows : List (List String)}
    (hfit : ∀ row ∈ rows, row.length = header.length)
    (hcells : ∀ row ∈ header :: rows, ∀ cell ∈ row,
      '\n' ∉ cell.toList ∧ EndsVisibly cell.toList) :
    ∃ text widths, columns? (header :: rows) = some text ∧
      IsAligned (header :: rows) widths text := by
  obtain ⟨widths, hwidths, hlength, hwidth⟩ :=
    exists_columnWidths fun row hrow => Nat.le_of_eq (hfit row hrow).symm
  have hrowLength : ∀ row ∈ header :: rows, row.length = widths.length :=
    List.forall_mem_cons.mpr ⟨hlength.symm, fun row hrow => (hfit row hrow).trans hlength.symm⟩
  let lines := columnLine widths header :: dashLine widths :: rows.map (columnLine widths)
  have hbreaks : ∀ line ∈ lines, '\n' ∉ line.toList := by
    refine List.forall_mem_cons.mpr ⟨?_, List.forall_mem_cons.mpr ⟨?_, ?_⟩⟩
    · exact lineBreak_not_mem_columnLine fun cell hcell =>
        (hcells header (List.mem_cons_self ..) cell hcell).1
    · exact lineBreak_not_mem_dashLine widths
    · intro line hline
      obtain ⟨row, hrow, rfl⟩ := List.mem_map.mp hline
      exact lineBreak_not_mem_columnLine fun cell hcell =>
        (hcells row (List.mem_cons_of_mem header hrow) cell hcell).1
  have htext : columns? (header :: rows) = some ("\n".intercalate lines) := by
    rw [columns?, hwidths]
    rfl
  refine ⟨"\n".intercalate lines, widths, htext, hrowLength, hwidth,
    (header :: rows).map fun row => (columnLine widths row).toList, (dashLine widths).toList,
    ?_, ?_, fun j w hw => columnAt_dashLine hw⟩
  · rw [linesOf_intercalate (List.cons_ne_nil _ _) hbreaks]
    simp
  · refine List.forall₂_map_right_iff.mpr (List.forall₂_same.mpr fun row hrow => ?_)
    exact showsRow_columnLine (fits_of_isGreatest hwidth hrow (hrowLength row hrow))
      fun cell hcell => (hcells row hrow cell hcell).2

/-- The last column is empty, and the line of the last row ends before it. -/
theorem columns_align_emptyCells :
    (∀ row ∈ [["a b", "$", ""], ["", "", ""]], row.length = ["State", "x", ""].length) ∧
    (∀ row ∈ [["State", "x", ""], ["a b", "$", ""], ["", "", ""]], ∀ cell ∈ row,
      '\n' ∉ cell.toList ∧ EndsVisibly cell.toList) ∧
    ∃ text widths,
      columns? [["State", "x", ""], ["a b", "$", ""], ["", "", ""]] = some text ∧
        IsAligned [["State", "x", ""], ["a b", "$", ""], ["", "", ""]] widths text :=
  ⟨by decide, by decide, columns_align (by decide) (by decide)⟩

/-- A column of no width has no dashes, and the spaces before it stay. -/
example : columns? [["State", "x", ""], ["a b", "$", ""], ["", "", ""]] =
    some "State  x\n-----  -  \na b    $\n" := by decide +kernel

end ShiftReduce.Text
