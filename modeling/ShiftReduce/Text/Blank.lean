/-
Blank characters, and texts without blanks at their ends.

* `isBlank` — the class of characters that separate words;
* `trimStart`, `trimEnd`, `trim` — a text without the blanks it starts with,
  ends with, or both;
* `isBlank_of_isWhitespace` — the class extends the core library's ASCII one.
-/
namespace ShiftReduce.Text

/-- The characters that separate words: the line and file separators among the control
characters, and every space character of Unicode. -/
def isBlank (c : Char) : Bool :=
  let n := c.toNat
  (0x09 ≤ n && n ≤ 0x0D) || (0x1C ≤ n && n ≤ 0x20) || n = 0x85 || n = 0xA0 || n = 0x1680
    || (0x2000 ≤ n && n ≤ 0x200A) || n = 0x2028 || n = 0x2029 || n = 0x202F || n = 0x205F
    || n = 0x3000

/-- The text from its first character that is no blank on. -/
def trimStart (cs : List Char) : List Char := cs.dropWhile isBlank

/-- The text up to its last character that is no blank. -/
def trimEnd : List Char → List Char
  | [] => []
  | c :: cs =>
    match trimEnd cs with
    | [] => if isBlank c then [] else [c]
    | d :: ds => c :: d :: ds

/-- The text without blanks at either end. -/
def trim (cs : List Char) : List Char := trimEnd (trimStart cs)

theorem isBlank_space : isBlank ' ' = true := by decide

/-- Every character that the core library calls whitespace is a blank. -/
theorem isBlank_of_isWhitespace {c : Char} (h : c.isWhitespace = true) : isBlank c = true := by
  simp only [Char.isWhitespace, Bool.or_eq_true, decide_eq_true_eq] at h
  rcases h with ((rfl | rfl) | rfl) | rfl <;> decide

/-- A text that ends in no blank keeps all its characters. -/
theorem trimEnd_append_of_not_isBlank (cs : List Char) {c : Char} (h : isBlank c = false) :
    trimEnd (cs ++ [c]) = cs ++ [c] := by
  induction cs with
  | nil => simp [trimEnd, h]
  | cons d ds ih =>
    rw [List.cons_append, trimEnd, ih]
    cases ds <;> rfl

end ShiftReduce.Text
