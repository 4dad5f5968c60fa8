/-
Texts in columns.

* `padEnd` — a text filled up with blanks on its right;
* `columns` — rows of cells under a header row, each column as wide as its widest cell, with a
  line of dashes below the header;
* `columns_nil` — no rows give the empty text.

The header says how many columns there are: a row's further cells are dropped, and a row that
has fewer is refused.
-/
import ShiftReduce.Text.Blank

namespace ShiftReduce.Text

/-- A text followed by as many spaces as it lacks to `width` characters. -/
def padEnd (width : Nat) (s : String) : String :=
  s ++ String.ofList (List.replicate (width - s.length) ' ')

/-- A text preceded by as many spaces as it lacks to `width` characters. -/
def padStart (width : Nat) (s : String) : String :=
  String.ofList (List.replicate (width - s.length) ' ') ++ s

/-- The length of the longest cell at index `i`; none if a row has no such cell. -/
def columnWidth? (i : Nat) : List (List String) → Option Nat
  | [] => some 0
  | row :: rows =>
    match row[i]?, columnWidth? i rows with
    | some cell, some width => some (max cell.length width)
    | _, _ => none

/-- The widths of the columns that the first row has. -/
def columnWidths? (rows : List (List String)) : Option (List Nat) :=
  match rows with
  | [] => some []
  | header :: _ => (List.range header.length).mapM fun i => columnWidth? i rows

/-- One row: its cells padded to the widths, two spaces between columns, none at the end. -/
def columnLine (widths : List Nat) (row : List String) : String :=
  let line := "  ".intercalate (List.zipWith padEnd widths row)
  String.ofList (trimEnd line.toList)

/-- The line of dashes below the header. -/
def dashLine (widths : List Nat) : String :=
  "  ".intercalate (widths.map fun w => String.ofList (List.replicate w '-'))

/-- Rows of cells in columns, the first row being the header; none if a row is shorter than the
header. -/
def columns? : List (List String) → Option String
  | [] => some ""
  | header :: rows => do
    let widths ← columnWidths? (header :: rows)
    let lines := columnLine widths header :: dashLine widths :: rows.map (columnLine widths)
    return "\n".intercalate lines

theorem columns_nil : columns? [] = some "" := rfl

end ShiftReduce.Text
