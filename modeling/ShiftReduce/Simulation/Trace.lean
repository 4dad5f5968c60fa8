/-
Runs as they are shown.

* `TraceRow` — one step: its number, the stack, the input that is left, and what is done;
* `Trace` — the rows of a run; the run is accepted if the last one says so;
* `Trace.ofSteps` — the rows of a list of steps;
* `Trace.accepted_ofSteps` — they are accepted if the last step accepts;
* `simulate` — the trace of a table over a text.
-/
import ShiftReduce.Simulation.Configuration

namespace ShiftReduce

/-- One step as it is shown. -/
structure TraceRow where
  index : Int
  stack : String
  input : String
  action : String
  deriving DecidableEq, Repr

/-- The rows of a run. -/
structure Trace where
  rows : List TraceRow
  deriving DecidableEq, Repr

/-- A move as it is shown. -/
def Move.text : Move → String
  | shift state => "Shift(" ++ toString state ++ ")"
  | reduce rule r => "Reduce(" ++ toString rule ++ ") by " ++ r.name ++ "->" ++ r.rhsText
  | accept => "Accept"
  | reject => "Reject"

/-- A text is told from another by its first character. -/
theorem append_ne_of_head {c d : Char} (h : c ≠ d) {s t : String} (hs : s.toList.head? = some c)
    (ht : t.toList.head? = some d) (rest : String) : s ++ rest ≠ t := by
  intro e
  have := congrArg (fun s : String => s.toList.head?) e
  simp only [String.toList_append, List.head?_append, hs, ht] at this
  exact h (Option.some.inj this)

/-- Of all moves only acceptance is shown as acceptance is. -/
theorem Move.text_eq_accept_iff {move : Move} : move.text = Move.text .accept ↔ move = .accept := by
  constructor
  · intro h
    cases move with
    | shift state =>
      rw [text, text, String.append_assoc] at h
      exact absurd h (append_ne_of_head (show 'S' ≠ 'A' by decide) rfl rfl _)
    | reduce rule r =>
      rw [text, text, String.append_assoc, String.append_assoc, String.append_assoc,
        String.append_assoc] at h
      exact absurd h (append_ne_of_head (show 'R' ≠ 'A' by decide) rfl rfl _)
    | accept => rfl
    | reject => exact absurd h (by decide)
  · rintro rfl
    rfl

/-- A stack as it is shown: state 0, then each symbol and its state. -/
def stackText (stack : List (Symbol × Nat)) : String :=
  Text.unwords ("0" :: stack.reverse.flatMap fun (s, state) => [s, toString state])

/-- A step as row number `index`. -/
def Step.row (step : Step) (index : Nat) : TraceRow :=
  ⟨index, stackText step.configuration.stack, Text.unwords step.configuration.input, step.move.text⟩

namespace Trace

/-- The rows of a list of steps, numbered from 1 on. -/
def ofSteps (steps : List Step) : Trace := ⟨(steps.zipIdx 1).map fun (step, n) => step.row n⟩

/-- Whether the last row accepts. -/
def accepted (t : Trace) : Bool := t.rows.getLast?.any fun row => row.action = Move.text .accept

theorem accepted_ofSteps (steps : List Step) :
    (ofSteps steps).accepted = steps.getLast?.any fun step => step.move = .accept := by
  unfold accepted ofSteps
  rw [List.getLast?_map, List.getLast?_zipIdx]
  cases steps.getLast? with
  | none => rfl
  | some step => simp [Step.row, Move.text_eq_accept_iff]

/-- The rows as texts. -/
def texts (t : Trace) : List (List String) :=
  t.rows.map fun row => [toString row.index, row.stack, row.input, row.action]

/-- The row at a position; a negative position counts from the end. -/
def rowAt (t : Trace) (i : Int) : Except Fault TraceRow := atPosition t.rows i

/-- The trace in short. -/
def summary (t : Trace) : String :=
  "ParseTrace(steps=" ++ toString t.rows.length ++ ", accepted="
    ++ (if t.accepted then "True" else "False") ++ ")"

end Trace

/-- The trace of a table over the tokens of a text, which stand between blanks. More than `limit`
steps are given up. -/
def simulate (g : Grammar) (t : Table) (limit : Nat) (text : String) : Except Fault Trace := do
  match ← runOn g t limit (Text.wordsOf text) with
  | some steps => return Trace.ofSteps steps
  | none => .error (.unfinished limit)

/-- A number of steps that no run which ends comes near to in practice. -/
def stepLimit : Nat := Nat.pow 2 64

end ShiftReduce
