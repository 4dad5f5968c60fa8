/-
Message templates.

A template is a text with places for arguments: `%s` takes an argument as it is shown, `%r` takes
a text in quotes, `%d` takes an integer, and `%%` stands for a percent sign.

* `Template.fill` — the template with its arguments in their places;
* `Template.Fault` — why a template does not fit its arguments, and `Fault.message`;
* `Template.fill_of_no_percent` — a text without a percent sign and without arguments is itself.
-/
import ShiftReduce.Text.Quoted

namespace ShiftReduce.Text.Template

/-- What can be put into a place of a template. -/
inductive Argument where
  | text (s : String)
  | number (n : Int)
  deriving DecidableEq, Repr

/-- Why a template does not fit its arguments. -/
inductive Fault where
  /-- There are fewer arguments than places. -/
  | tooFew
  /-- There are more arguments than places. -/
  | tooMany
  /-- A place for an integer got a text. -/
  | notANumber
  /-- A percent sign is followed by a character that asks for nothing known. -/
  | unknownPlace (c : Char) (index : Nat)
  /-- The template ends with a percent sign. -/
  | incomplete
  deriving DecidableEq, Repr

/-- The wording of a fault. A character outside of ASCII, or a control character, is shown as a
question mark beside its code point. -/
def Fault.message : Fault → String
  | tooFew => "not enough arguments for format string"
  | tooMany => "not all arguments converted during string formatting"
  | notANumber => "%d format: a real number is required, not str"
  | unknownPlace c index =>
    let shown := if 31 ≤ c.toNat ∧ c.toNat ≤ 126 then c else '?'
    "unsupported format character '" ++ String.singleton shown ++ "' (0x"
      ++ String.ofList (hex 1 c.toNat) ++ ") at index " ++ toString index
  | incomplete => "incomplete format"

/-- An argument in a place marked by `c`; `index` is where the mark stands. -/
def place (c : Char) (index : Nat) (argument : Argument) : Except Fault String :=
  match c, argument with
  | 's', .text s => .ok s
  | 's', .number n => .ok (toString n)
  | 'r', .text s => .ok (quoted s)
  | 'r', .number n => .ok (toString n)
  | 'd', .number n => .ok (toString n)
  | 'd', .text _ => .error .notANumber
  | c, _ => .error (.unknownPlace c index)

/-- The rest of a template from position `index` on, filled with the arguments that are left. -/
def fillFrom (index : Nat) : List Char → List Argument → Except Fault (List Char)
  | [], [] => .ok []
  | [], _ :: _ => .error .tooMany
  | ['%'], _ => .error .incomplete
  | '%' :: '%' :: cs, arguments => ('%' :: ·) <$> fillFrom (index + 2) cs arguments
  | '%' :: _ :: _, [] => .error .tooFew
  | '%' :: c :: cs, argument :: arguments => do
    let shown ← place c (index + 1) argument
    return shown.toList ++ (← fillFrom (index + 2) cs arguments)
  | c :: cs, arguments => (c :: ·) <$> fillFrom (index + 1) cs arguments

/-- A template with its arguments in their places, from left to right. -/
def fill (template : String) (arguments : List Argument) : Except Fault String :=
  String.ofList <$> fillFrom 0 template.toList arguments

theorem fillFrom_of_no_percent {cs : List Char} (h : '%' ∉ cs) (index : Nat) :
    fillFrom index cs [] = .ok cs := by
  induction cs generalizing index with
  | nil => rfl
  | cons c cs ih =>
    have hc : c ≠ '%' := fun e => h (e ▸ List.mem_cons_self)
    have hcs : '%' ∉ cs := fun hm => h (List.mem_cons_of_mem c hm)
    rw [fillFrom, ih hcs (index + 1)]
    · rfl
    all_goals intros; contradiction

theorem fill_of_no_percent {s : String} (h : '%' ∉ s.toList) : fill s [] = .ok s := by
  rw [fill, fillFrom_of_no_percent h]
  exact congrArg Except.ok String.ofList_toList

end ShiftReduce.Text.Template
