/-
Cells read back from their texts.

A shift begins with an s and a reduction with an r, and the number of a state or a rule is what is
left. No action has a slash in its text, so actions that compete are told apart.

* `numberOf?`, `Action.ofText?`, `Cell.ofText?` — numbers, actions and cells of texts;
* `Cell.IsFlat` — an action, or two or more that compete;
* `Cell.isFlat_iff` — these are the cells of lists of actions;
* `Cell.ofText?_cellText` — a cell is read back from the text of its actions;
* `Cell.IsFlat.eq_of_text_eq` — flat cells with the same text are the same.
-/
import ShiftReduce.Proofs.Outcome
import ShiftReduce.Table.Basic

namespace ShiftReduce

/-! ### Numbers -/

/-- The number that a text of digits stands for. -/
def numberOf? (digits : List Char) : Option Nat :=
  if digits ≠ [] ∧ digits.all Char.isDigit then some (Nat.ofDigitChars 10 digits 0) else none

theorem toList_toString (n : Nat) : (toString n).toList = Nat.toDigits 10 n := by
  rw [Nat.toString_eq_repr, Nat.toList_repr]

theorem isDigit_of_mem_toString {n : Nat} {c : Char} (h : c ∈ (toString n).toList) :
    c.isDigit = true := by
  rw [toList_toString] at h
  exact Nat.isDigit_of_mem_toDigits (by decide) (by decide) h

theorem numberOf?_toString (n : Nat) : numberOf? (toString n).toList = some n := by
  have hne : (toString n).toList ≠ [] := by
    rw [toList_toString]
    exact Nat.toDigits_ne_nil
  have hdigits : (toString n).toList.all Char.isDigit = true :=
    List.all_eq_true.mpr fun _ => isDigit_of_mem_toString
  rw [numberOf?, if_pos ⟨hne, hdigits⟩, toList_toString, Nat.ofDigitChars_ten_toDigits]

/-! ### Actions -/

namespace Action

/-- The action that a text shows. -/
def ofText? : List Char → Option (Action Nat)
  | ['a', 'c', 'c', 'e', 'p', 't'] => some .accept
  | 's' :: state => (numberOf? state).map .shift
  | 'r' :: rule => (numberOf? rule).map .reduce
  | state => (numberOf? state).map .goto

theorem toList_text_shift (state : Nat) :
    (shift state).text.toList = 's' :: (toString state).toList := String.toList_append

theorem toList_text_reduce (rule : Nat) :
    (reduce rule).text.toList = 'r' :: (toString rule).toList := String.toList_append

theorem ofText?_toString (n : Nat) : ofText? (toString n).toList = some (.goto n) := by
  have hdigit : ∀ c cs, (toString n).toList = c :: cs → c.isDigit = true := fun c cs h =>
    isDigit_of_mem_toString (h ▸ List.mem_cons_self ..)
  unfold ofText?
  split
  · next h => exact absurd (hdigit _ _ h) (by decide)
  · next h => exact absurd (hdigit _ _ h) (by decide)
  · next h => exact absurd (hdigit _ _ h) (by decide)
  · rw [numberOf?_toString]
    rfl

/-- An action is read back from its text. -/
theorem ofText?_text (a : Action Nat) : ofText? a.text.toList = some a := by
  cases a with
  | shift state =>
    rw [toList_text_shift, ofText?, numberOf?_toString]
    rfl
  | goto state => exact ofText?_toString state
  | reduce rule =>
    rw [toList_text_reduce, ofText?, numberOf?_toString]
    rfl
  | accept => rfl

theorem slash_not_mem_text (a : Action Nat) : '/' ∉ a.text.toList := by
  have hdigits : ∀ n : Nat, '/' ∉ (toString n).toList := fun n h =>
    absurd (isDigit_of_mem_toString h) (by decide)
  cases a with
  | shift state =>
    rw [toList_text_shift]
    exact List.not_mem_cons_of_ne_of_not_mem (by decide) (hdigits state)
  | goto state => exact hdigits state
  | reduce rule =>
    rw [toList_text_reduce]
    exact List.not_mem_cons_of_ne_of_not_mem (by decide) (hdigits rule)
  | accept => decide

end Action

/-! ### Cells -/

namespace Cell

/-- A cell without cells in conflict among its parts: an action, or two or more that compete. -/
inductive IsFlat : Cell Nat → Prop where
  | single (action : Action Nat) : IsFlat (single action)
  | conflict (actions : List (Action Nat)) (several : 2 ≤ actions.length) :
    IsFlat (conflict (actions.map Cell.single))

/-- Flat cells are those of lists of actions. -/
theorem isFlat_iff {c : Cell Nat} : c.IsFlat ↔ ∃ actions, ofActions? actions = some c := by
  constructor
  · rintro (⟨action⟩ | ⟨actions, hseveral⟩)
    · exact ⟨[action], rfl⟩
    · match actions, hseveral with
      | first :: second :: rest, _ => exact ⟨first :: second :: rest, rfl⟩
  · rintro ⟨actions, hactions⟩
    match actions, hactions with
    | [action], hactions =>
      obtain rfl := Option.some.inj hactions
      exact .single action
    | first :: second :: rest, hactions =>
      obtain rfl := Option.some.inj hactions
      exact .conflict _ (Nat.le_add_left 2 rest.length)

theorem exists_ofActions? {actions : List (Action Nat)} (h : actions ≠ []) :
    ∃ c, ofActions? actions = some c :=
  match actions, h with
  | [_], _ => ⟨_, rfl⟩
  | _ :: _ :: _, _ => ⟨_, rfl⟩

/-- The cell that a text shows, with slashes between the actions that compete. -/
def ofText? (text : String) : Option (Cell Nat) :=
  ((text.toList.splitOn '/').mapM Action.ofText?).bind ofActions?

/-- A cell is read back from the text of its actions. -/
theorem ofText?_cellText {actions : List (Action Nat)} (h : actions ≠ []) :
    ofText? (cellText actions) = ofActions? actions := by
  have hchars : (cellText actions).toList =
      ['/'].intercalate (actions.map fun a => a.text.toList) := by
    rw [cellText, String.toList_intercalate, List.map_map]
    rfl
  have hparts : (cellText actions).toList.splitOn '/' = actions.map fun a => a.text.toList := by
    rw [hchars]
    refine List.splitOn_intercalate '/' (fun part hpart => ?_) (mt List.map_eq_nil_iff.mp h)
    obtain ⟨a, _, rfl⟩ := List.mem_map.mp hpart
    exact a.slash_not_mem_text
  have hactions : (actions.map fun a => a.text.toList).mapM Action.ofText? = some actions := by
    rw [List.mapM_map, mapM_option_eq_map (g := id) fun a _ => a.ofText?_text, List.map_id]
  rw [ofText?, hparts, hactions, Option.bind_some]

/-- The text of a cell without actions is empty, and no other is. -/
theorem cellText_eq_empty_iff {actions : List (Action Nat)} :
    cellText actions = "" ↔ actions = [] := by
  constructor
  · intro h
    by_contra hne
    obtain ⟨c, hc⟩ := exists_ofActions? hne
    have hread := ofText?_cellText hne
    rw [h, hc, show ofText? "" = none by decide] at hread
    cases hread
  · rintro rfl
    rfl

/-- A flat cell is read back from its text. -/
theorem IsFlat.ofText?_text {c : Cell Nat} (h : c.IsFlat) : ofText? c.text = some c := by
  obtain ⟨actions, hactions⟩ := isFlat_iff.mp h
  have hne : actions ≠ [] := by
    rintro rfl
    cases hactions
  rw [text_of_ofActions? hactions, ofText?_cellText hne, hactions]

/-- Flat cells with the same text are the same. -/
theorem IsFlat.eq_of_text_eq {c d : Cell Nat} (hc : c.IsFlat) (hd : d.IsFlat)
    (h : c.text = d.text) : c = d := by
  have hread := hc.ofText?_text
  rw [h, hd.ofText?_text] at hread
  exact (Option.some.inj hread).symm

/-- A conflict among the parts of another has the text of a flat one. -/
example : (conflict [conflict [single (.shift 1), single (.reduce 2)], single (.reduce 3)]).text =
    (conflict [single (.shift 1), single (.reduce 2), single (.reduce 3)]).text := by decide

end Cell

end ShiftReduce
