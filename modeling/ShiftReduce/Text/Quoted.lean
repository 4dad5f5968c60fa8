/-
Quoted texts.

A quoted text stands between single quotes, or between double quotes if it holds a single quote
and no double quote. A backslash, the quote in use, the line ends, the tab and every character
that is not printable are written as escapes.

* `escape` — one character between given quotes;
* `quoted` — the whole text;
* `escape_of_isPrintable` — a printable character other than the quote and the backslash stays
  as it is.
-/
import ShiftReduce.Text.Printable

namespace ShiftReduce.Text

/-- A number in lowercase hexadecimal digits, at least `width` of them. -/
def hex (width n : Nat) : List Char :=
  let digits := Nat.toDigits 16 n
  List.replicate (width - digits.length) '0' ++ digits

/-- A character as it is written between the quotes `quote`. -/
def escape (quote c : Char) : List Char :=
  if c = quote ∨ c = '\\' then ['\\', c]
  else if c = '\n' then ['\\', 'n']
  else if c = '\r' then ['\\', 'r']
  else if c = '\t' then ['\\', 't']
  else if isPrintable c then [c]
  else if c.toNat < 0x100 then '\\' :: 'x' :: hex 2 c.toNat
  else if c.toNat < 0x10000 then '\\' :: 'u' :: hex 4 c.toNat
  else '\\' :: 'U' :: hex 8 c.toNat

/-- The quote that needs fewer escapes, the single one if in doubt. -/
def quoteFor (s : String) : Char :=
  if '\'' ∈ s.toList ∧ '"' ∉ s.toList then '"' else '\''

/-- A text in quotes. -/
def quoted (s : String) : String :=
  let quote := quoteFor s
  String.ofList (quote :: s.toList.flatMap (escape quote) ++ [quote])

theorem escape_of_isPrintable {quote c : Char} (h : isPrintable c = true) (hq : c ≠ quote)
    (hb : c ≠ '\\') : escape quote c = [c] := by
  have hn : c ≠ '\n' := by rintro rfl; exact absurd h (by decide)
  have hr : c ≠ '\r' := by rintro rfl; exact absurd h (by decide)
  have ht : c ≠ '\t' := by rintro rfl; exact absurd h (by decide)
  simp [escape, h, hq, hb, hn, hr, ht]

end ShiftReduce.Text
