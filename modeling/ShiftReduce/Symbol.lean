/-
Grammar symbols and the marks among them.

A symbol is a text. Runs of the letters A to Z are non-terminals and every other text is a
terminal.

* `Symbol.endMark`, `Symbol.empty`, `Symbol.dot` — the end of the input, the empty string, and
  the place that an item has reached;
* `Symbol.isNonterminal` — the class of a symbol.
-/
namespace ShiftReduce

/-- A grammar symbol. -/
abbrev Symbol := String

namespace Symbol

/-- Marks the end of the input. -/
def endMark : Symbol := "$"

/-- Stands for the empty string, in rules and in FIRST sets. -/
def empty : Symbol := "ε"

/-- Marks the place that an item has reached in its rule. -/
def dot : Symbol := "•"

/-- Non-terminals consist of the letters A to Z, and of at least one. -/
def isNonterminal (s : Symbol) : Bool := !s.toList.isEmpty && s.toList.all Char.isUpper

end Symbol

end ShiftReduce
