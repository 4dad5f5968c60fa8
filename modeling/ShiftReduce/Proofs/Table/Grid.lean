/-
Tables read back from their grids.

A grid has a column for each symbol of the grammar and one for the end of the input. Transitions are
on symbols of the grammar, and in FOLLOW sets there is nothing but terminals and the end mark, so no
action is left out. No symbol has two columns, since neither the end mark nor the head of the
states' column is a symbol of the grammar.

* `Table.grid_eq`, `Table.cellAt_eq` — the grid and the cells of a table by its actions;
* `readRow?`, `readGrid?` — the cells that a grid shows;
* `Table.readGrid?_grid` — what is read from the grid of a table;
* `Table.headers_of_construct` — the columns of a table;
* `Tabulated.mem_columnSymbols` — symbols with actions have columns;
* `Compiled.IsOf.nodup_headers` — no two columns have the same head;
* `Table.IsLegible`, `compile_isLegible` — a grid that shows its table.
-/
import ShiftReduce.Proofs.Grammar.Printing
import ShiftReduce.Proofs.Loop.Compilation
import ShiftReduce.Proofs.Table.Exactness
import ShiftReduce.Proofs.Table.Texts

namespace ShiftReduce

/-! ### Reading -/

/-- The cell that a text shows in the column of a symbol; an empty text shows none. -/
def readCell? (s : Symbol) (text : String) : Option (Option (Symbol × Cell Nat)) :=
  if text = "" then some none else (Cell.ofText? text).map fun cell => some (s, cell)

/-- The state that a row shows, and its cells by symbol. -/
def readRow? (symbols : List Symbol) : List String → Option (Nat × List (Symbol × Cell Nat))
  | [] => none
  | state :: texts => do
    let n ← numberOf? state.toList
    let cells ← (symbols.zip texts).mapM fun (s, text) => readCell? s text
    return (n, cells.filterMap id)

/-- The states that a grid shows, with their cells. -/
def readGrid? : List (List String) → Option (List (Nat × List (Symbol × Cell Nat)))
  | [] => none
  | headers :: rows => rows.mapM (readRow? headers.tail)

theorem readCell?_cellText (s : Symbol) (actions : List (Action Nat)) :
    readCell? s (cellText actions) =
      some ((Cell.ofActions? actions).map fun cell => (s, cell)) := by
  rw [readCell?]
  split
  · next hempty =>
    rw [Cell.cellText_eq_empty_iff.mp hempty]
    rfl
  · next hne =>
    have hactions : actions ≠ [] := mt Cell.cellText_eq_empty_iff.mpr hne
    obtain ⟨cell, hcell⟩ := Cell.exists_ofActions? hactions
    rw [Cell.ofText?_cellText hactions, hcell]
    rfl

namespace Table

variable {t : Table} {n : Nat} {s : Symbol}

theorem cellAt_eq (hn : n < t.size) : t.cellAt n s = .ok (Cell.ofActions? (t.actions n s)) := by
  rw [cellAt, actionsAt, if_pos ⟨Int.natCast_nonneg n, Int.ofNat_lt.mpr hn⟩]
  rfl

theorem lt_size_of_cellAt {cell : Option (Cell Nat)} (h : t.cellAt n s = .ok cell) :
    n < t.size := by
  obtain ⟨actions, hactions, _⟩ := bind_eq_ok_iff.mp h
  rw [actionsAt] at hactions
  split at hactions
  · next hrange => exact Int.ofNat_lt.mp hrange.2
  · cases hactions

/-- The texts of a state's cells, by column. -/
def rowTexts (t : Table) (n : Nat) : List String :=
  t.headers.tail.map fun s => cellText (t.actions n s)

/-- The cells of a state, by column. -/
def rowCells (t : Table) (n : Nat) : List (Symbol × Cell Nat) :=
  t.headers.tail.filterMap fun s => (Cell.ofActions? (t.actions n s)).map fun cell => (s, cell)

/-- A grid has a row for each state. -/
theorem grid_eq (t : Table) : t.grid =
    t.headers :: (List.range t.size).map fun n => toString n :: t.rowTexts n := by
  refine congrArg (t.headers :: ·) (List.ext_getElem? fun n => ?_)
  rw [List.getElem?_map, List.getElem?_map, List.getElem?_zipIdx, Nat.zero_add]
  by_cases hn : n < t.size
  · rw [List.getElem?_range hn, Option.map_some, rowTexts]
    unfold actions Board.actions
    rw [List.getElem?_eq_getElem hn]
    rfl
  · have hge := Nat.le_of_not_lt hn
    rw [List.getElem?_eq_none_iff.mpr hge,
      List.getElem?_eq_none_iff.mpr (List.length_range ▸ hge)]
    rfl

theorem readRow?_rowTexts (t : Table) (n : Nat) :
    readRow? t.headers.tail (toString n :: t.rowTexts n) = some (n, t.rowCells n) := by
  have hcells : (t.headers.tail.zip (t.rowTexts n)).mapM (fun (s, text) => readCell? s text) =
      some (t.headers.tail.map fun s =>
        (Cell.ofActions? (t.actions n s)).map fun cell => (s, cell)) := by
    rw [rowTexts, ← List.map_prod_left_eq_zip, List.mapM_map]
    exact mapM_option_eq_map fun s _ => readCell?_cellText s _
  have hpresent : (t.headers.tail.map fun s =>
      (Cell.ofActions? (t.actions n s)).map fun cell => (s, cell)).filterMap id = t.rowCells n := by
    rw [List.filterMap_map]
    rfl
  rw [readRow?, numberOf?_toString, hcells, ← hpresent]
  rfl

/-- What is read from a grid are the states in order, each with its cells. -/
theorem readGrid?_grid (t : Table) :
    readGrid? t.grid = some ((List.range t.size).map fun n => (n, t.rowCells n)) := by
  rw [grid_eq, readGrid?, List.mapM_map]
  exact mapM_option_eq_map fun n _ => t.readRow?_rowTexts n

theorem mem_rowCells_iff {cell : Cell Nat} : (s, cell) ∈ t.rowCells n ↔
    s ∈ t.headers.tail ∧ Cell.ofActions? (t.actions n s) = some cell := by
  simp only [rowCells, List.mem_filterMap, Option.map_eq_some_iff]
  constructor
  · rintro ⟨s', hs, cell', hcell, heq⟩
    obtain ⟨rfl, rfl⟩ := Prod.mk.inj heq
    exact ⟨hs, hcell⟩
  · rintro ⟨hs, hcell⟩
    exact ⟨s, hs, cell, hcell, rfl⟩

theorem map_fst_rowCells_sublist (t : Table) (n : Nat) :
    ((t.rowCells n).map Prod.fst).Sublist t.headers.tail := by
  unfold rowCells
  induction t.headers.tail with
  | nil => exact .slnil
  | cons s symbols ih =>
    rw [List.filterMap_cons]
    cases Cell.ofActions? (t.actions n s) with
    | none => exact ih.cons s
    | some cell => exact ih.cons_cons s

/-! ### Columns -/

theorem headers_of_ofSets {g : Grammar} {m : Automaton} (h : ofSets g m = .ok t) :
    t.headers = "State" :: columnSymbols g := by
  obtain ⟨b, _, h⟩ := bind_eq_ok_iff.mp h
  obtain ⟨descriptions, _, h⟩ := bind_eq_ok_iff.mp h
  rw [← Except.ok.inj h]

theorem headers_of_build {g : Grammar} {m : Automaton} (h : (build g m).2 = .ok t) :
    t.headers = "State" :: columnSymbols (build g m).1 := by
  unfold build at h ⊢
  split at h
  · cases h
  · exact headers_of_ofSets h

/-- A table has a column for the states, and the columns of its grammar's symbols. -/
theorem headers_of_construct {g : Grammar} {malformed : List Malformed} {full : Bool} {c : Compiled}
    (h : construct g malformed full = .ok c) :
    c.table.headers = "State" :: columnSymbols c.grammar := by
  unfold construct at h
  split at h
  · cases h
  · split at h
    · cases h
    · obtain ⟨a, _, h⟩ := bind_eq_ok_iff.mp h
      obtain ⟨m, _, h⟩ := bind_eq_ok_iff.mp h
      obtain ⟨t, ht, h⟩ := bind_eq_ok_iff.mp h
      obtain rfl := Except.ok.inj h
      exact headers_of_build ht

theorem mem_columnSymbols_iff {g : Grammar} (hg : g.Consistent) :
    s ∈ columnSymbols g ↔ s = Symbol.endMark ∨ g.Occurs s := by
  rw [columnSymbols, List.perm_middle.mem_iff, List.mem_cons, ← hg.mem_symbols_iff, Grammar.symbols]

end Table

/-- A symbol with an action has a column. -/
theorem Tabulated.mem_columnSymbols {g : Grammar} {a : Augmented} {full : Bool} {m : Automaton}
    {t : Table} (h : Tabulated g a full m t) (hsets : g.LeastSets) {n : Nat} {s : Symbol}
    {action : Action Nat} (haction : action ∈ t.actions n s) : s ∈ Table.columnSymbols g := by
  have hg := h.consistent
  have hmove : ∀ {k}, m.goto n s = some k → s ∈ Table.columnSymbols g := fun hgoto =>
    (Table.mem_columnSymbols_iff hg).mpr
      (.inr (h.occurs_of_mem_transitions (Automaton.mem_of_goto hgoto)))
  have hgrounds := h.mem_actions_iff.mp haction
  cases action with
  | shift k => exact hmove hgrounds.1
  | goto k => exact hmove hgrounds.1
  | reduce rule =>
    obtain ⟨_, i, _, _, hreduces, _⟩ := hgrounds
    have hempty : Symbol.empty ∉ g.terminals := fun ht =>
      (h.readable.isReadable hg ht).ne_empty rfl
    refine (Table.mem_columnSymbols_iff hg).mpr ?_
    rcases hsets.mem_terminals_or_eq_endMark hempty hreduces.has_follow with hs | hs
    · exact .inr (hg.mem_terminals_iff.mp hs).2
    · exact .inl hs
  | accept => exact (Table.mem_columnSymbols_iff hg).mpr (.inl hgrounds.1)

/-- Symbols of a text are non-terminals or without letters A to Z. -/
theorem Grammar.isUniform_of_occurs {text : String} {s : Symbol}
    (h : (Grammar.parse text).1.Occurs s) : s.IsUniform := by
  obtain ⟨p, hp, hs⟩ := h
  have hrule := isWellFormed_of_parse (List.mem_map_of_mem (f := Production.toRule) hp)
  rcases hs with rfl | hs
  · exact .inl hrule.name_isNonterminal
  · exact (hrule.rhs_isWellFormed s hs).isUniform

theorem Compiled.IsOf.nodup_headers {c : Compiled} {full : Bool} {text : String}
    (h : c.IsOf full text) : ("State" :: Table.columnSymbols c.grammar).Nodup := by
  obtain ⟨_, htab⟩ := h.tabulated
  have hg := htab.consistent
  have hhead : ¬c.grammar.Occurs "State" := by
    obtain ⟨first, follow, hgrammar⟩ := h.grammar_eq
    rw [hgrammar]
    intro hoccurs
    exact absurd (Grammar.isUniform_of_occurs hoccurs) (by decide)
  refine List.nodup_cons.mpr ⟨fun hin => ?_, List.nodup_middle.mpr (List.nodup_cons.mpr ⟨?_, ?_⟩)⟩
  · rcases (Table.mem_columnSymbols_iff hg).mp hin with heq | hoccurs
    · exact absurd heq (by decide)
    · exact hhead hoccurs
  · exact mt hg.mem_symbols_iff.mp htab.not_occurs_endMark
  · exact hg.nodup_symbols

/-! ### Legible tables -/

/-- A text shows the cell of a state and a symbol. It is empty if there is none, and only then. -/
def Table.ShowsCell (t : Table) (n : Nat) (s : Symbol) (text : String) : Prop :=
  ∃ cell, t.cellAt n s = .ok cell ∧ text = (cell.map Cell.text).getD "" ∧
    (text = "" ↔ cell = none)

theorem Table.forall₂_showsCell {t : Table} {n : Nat} (hn : n < t.size) :
    List.Forall₂ (t.ShowsCell n) t.headers.tail (t.rowTexts n) := by
  refine List.forall₂_map_right_iff.mpr (List.forall₂_same.mpr fun s _ => ?_)
  have hshows := Cell.shows_ofActions? (t.actions n s)
  refine ⟨_, cellAt_eq hn, ?_, ?_⟩
  · cases hcell : Cell.ofActions? (t.actions n s) with
    | none => exact Cell.cellText_eq_empty_iff.mpr (hshows.absent.mp hcell)
    | some cell => exact (text_of_ofActions? hcell).symm
  · rw [Cell.cellText_eq_empty_iff, hshows.absent]

/-- A grid that shows its table: the heads of the columns, which are all different, and a row for
each state in order, with the text of a cell in the column of each symbol. No cell is without a
column, and all of them are flat and can be read from the grid, with their states and symbols. -/
structure Table.IsLegible (t : Table) (states : Nat) : Prop where
  length_grid : t.grid.length = states + 1
  length_row : ∀ row ∈ t.grid, row.length = t.headers.length
  head : t.grid.head? = some t.headers
  nodup_headers : t.headers.Nodup
  row : ∀ n < states, ∃ texts, t.grid[n + 1]? = some (toString n :: texts) ∧
    List.Forall₂ (t.ShowsCell n) t.headers.tail texts
  mem_headers : ∀ (n : Nat) s cell, t.cellAt n s = .ok (some cell) → s ∈ t.headers.tail
  isFlat : ∀ (n : Nat) s cell, t.cellAt n s = .ok (some cell) → cell.IsFlat
  read : ∃ rows, readGrid? t.grid = some rows ∧ rows.map Prod.fst = List.range states ∧
    ∀ n cells, (n, cells) ∈ rows → (cells.map Prod.fst).Nodup ∧
      ∀ s cell, (s, cell) ∈ cells ↔ t.cellAt n s = .ok (some cell)

/-- A cell that is there holds actions. -/
theorem Table.ofActions?_of_cellAt {t : Table} {n : Nat} {s : Symbol} {cell : Cell Nat}
    (h : t.cellAt n s = .ok (some cell)) :
    Cell.ofActions? (t.actions n s) = some cell ∧ ∃ action, action ∈ t.actions n s := by
  have hactions : Cell.ofActions? (t.actions n s) = some cell :=
    Except.ok.inj ((cellAt_eq (lt_size_of_cellAt h)).symm.trans h)
  refine ⟨hactions, List.exists_mem_of_ne_nil _ fun hnil => ?_⟩
  rw [hnil] at hactions
  cases hactions

/-- A table is legible if no two columns have the same head and each symbol with actions has a
column. -/
theorem Table.isLegible_of_columns {t : Table} (hne : t.headers ≠ []) (hnodup : t.headers.Nodup)
    (hcolumns : ∀ n s action, action ∈ t.actions n s → s ∈ t.headers.tail) :
    t.IsLegible t.size where
  length_grid := by rw [grid_eq, List.length_cons, List.length_map, List.length_range]
  length_row := by
    rw [grid_eq]
    refine List.forall_mem_cons.mpr ⟨rfl, fun row hrow => ?_⟩
    obtain ⟨n, _, rfl⟩ := List.mem_map.mp hrow
    rw [List.length_cons, rowTexts, List.length_map, List.length_tail]
    exact Nat.sub_add_cancel (List.length_pos_iff.mpr hne)
  head := by
    rw [grid_eq]
    rfl
  nodup_headers := hnodup
  row n hn := by
    refine ⟨t.rowTexts n, ?_, forall₂_showsCell hn⟩
    rw [grid_eq, List.getElem?_cons_succ, List.getElem?_map, List.getElem?_range hn]
    rfl
  mem_headers n s cell h := by
    obtain ⟨_, action, haction⟩ := ofActions?_of_cellAt h
    exact hcolumns n s action haction
  isFlat n s cell h := Cell.isFlat_iff.mpr ⟨_, (ofActions?_of_cellAt h).1⟩
  read := by
    refine ⟨_, t.readGrid?_grid, ?_, fun n cells hmem => ?_⟩
    · rw [List.map_map]
      exact List.map_id _
    · obtain ⟨n, hn, heq⟩ := List.mem_map.mp hmem
      obtain ⟨rfl, rfl⟩ := Prod.mk.inj heq
      refine ⟨(t.map_fst_rowCells_sublist n).nodup (hnodup.sublist (List.tail_sublist _)),
        fun s cell => ?_⟩
      rw [mem_rowCells_iff]
      constructor
      · rintro ⟨_, hactions⟩
        rw [cellAt_eq (List.mem_range.mp hn), hactions]
      · intro hcell
        obtain ⟨hactions, action, haction⟩ := ofActions?_of_cellAt hcell
        exact ⟨hcolumns n s action haction, hactions⟩

/-- The grid of a compiled text loses nothing, whichever items state 0 holds. It shows the cells of
all states, and cells that are flat are told apart by their texts. -/
theorem compile_isLegible {full : Bool} {text : String} {warnings : List Warning} {c : Compiled}
    (h : compile full text = (warnings, .ok c)) :
    c.table.IsLegible c.automaton.states.length ∧
      Set.InjOn Cell.text {cell : Cell Nat | cell.IsFlat} := by
  have hof := isOf_of_compile h
  obtain ⟨_, htab⟩ := hof.tabulated
  have hheaders := Table.headers_of_construct (construct_of_compile (congrArg Prod.snd h))
  have hnodup : c.table.headers.Nodup := hheaders ▸ hof.nodup_headers
  have hcolumns : ∀ n s action, action ∈ c.table.actions n s → s ∈ c.table.headers.tail := by
    intro n s action haction
    rw [hheaders]
    exact htab.mem_columnSymbols hof.leastSets haction
  rw [← htab.cells.1]
  exact ⟨Table.isLegible_of_columns (hheaders ▸ List.cons_ne_nil _ _) hnodup hcolumns,
    fun c hc d hd heq => hc.eq_of_text_eq hd heq⟩

/-- Two reductions by a rule that stands twice share a cell, and so do a shift and a reduction. -/
theorem compile_isLegible_ambiguous :
    ∃ warnings c, compile false "S -> a | a | S S" = (warnings, .ok c) ∧
      (c.table.IsLegible c.automaton.states.length ∧
        Set.InjOn Cell.text {cell : Cell Nat | cell.IsFlat}) ∧
      c.table.grid = [["State", "a", "$", "S"], ["0", "s1", "", "2"], ["1", "r0/r0", "r0/r0", ""],
        ["2", "s1", "accept", "3"], ["3", "s1/r2", "r2", "3"]] := by
  have hview : (compile false "S -> a | a | S S").2.toOption.map (fun c => c.table.grid) =
      some [["State", "a", "$", "S"], ["0", "s1", "", "2"], ["1", "r0/r0", "r0/r0", ""],
        ["2", "s1", "accept", "3"], ["3", "s1/r2", "r2", "3"]] := by
    decide +kernel
  obtain ⟨warnings, c, hc, hgrid⟩ := exists_of_compile _ hview
  exact ⟨warnings, c, hc, compile_isLegible hc, hgrid⟩

end ShiftReduce
