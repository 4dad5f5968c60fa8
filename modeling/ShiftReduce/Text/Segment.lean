/-
Cutting a text into maximal runs.

A text is cut at the characters that only separate, which belong to no run, and
between two neighbours that do not belong together.

* `segments` — the runs, for any choice of separators and of what belongs together;
* `words` — the runs between blanks;
* `flatten_segments` — the runs hold every character that is no separator, in order;
* `ne_nil_of_mem_segments` — no run is empty.
-/
import ShiftReduce.Text.Blank

namespace ShiftReduce.Text

/-- The runs with `c` in front of the first of them. -/
def consFirst (c : Char) : List (List Char) → List (List Char)
  | [] => [[c]]
  | run :: runs => (c :: run) :: runs

/-- The maximal runs of a text: characters of which `sep` holds belong to none, and a run ends
between two characters that `joins` does not join. -/
def segments (sep : Char → Bool) (joins : Char → Char → Bool) : List Char → List (List Char)
  | [] => []
  | c :: cs =>
    if sep c then segments sep joins cs
    else if cs.head?.any (fun d => !sep d && joins c d) then consFirst c (segments sep joins cs)
    else [c] :: segments sep joins cs

/-- The runs of characters between blanks. -/
def words (cs : List Char) : List (List Char) := segments isBlank (fun _ _ => true) cs

/-- The words of a string. -/
def wordsOf (s : String) : List String := (words s.toList).map String.ofList

/-- Words in a row, one space between neighbours. -/
def unwords (ws : List String) : String := " ".intercalate ws

theorem flatten_consFirst (c : Char) (runs : List (List Char)) :
    (consFirst c runs).flatten = c :: runs.flatten := by
  cases runs <;> simp [consFirst]

theorem flatten_segments (sep : Char → Bool) (joins : Char → Char → Bool) (cs : List Char) :
    (segments sep joins cs).flatten = cs.filter (fun c => !sep c) := by
  induction cs with
  | nil => rfl
  | cons c cs ih =>
    rw [segments]
    split
    · next h => simp [h, ih]
    · next h =>
      rw [List.filter_cons_of_pos (by simpa using h), ← ih]
      split
      · exact flatten_consFirst c _
      · rfl

theorem ne_nil_of_mem_segments {sep : Char → Bool} {joins : Char → Char → Bool}
    {cs run : List Char} (h : run ∈ segments sep joins cs) : run ≠ [] := by
  induction cs generalizing run with
  | nil => simp [segments] at h
  | cons c cs ih =>
    rw [segments] at h
    split at h
    · exact ih h
    · split at h
      · cases hs : segments sep joins cs with
        | nil => simp_all [consFirst]
        | cons r rs =>
          rw [hs, consFirst, List.mem_cons] at h
          rcases h with rfl | h
          · simp
          · exact ih (hs ▸ List.mem_cons_of_mem r h)
      · rcases List.mem_cons.1 h with rfl | h
        · simp
        · exact ih h

end ShiftReduce.Text
