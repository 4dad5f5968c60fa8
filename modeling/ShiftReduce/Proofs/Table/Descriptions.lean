/-
Descriptions of tables.

A table is put into words without fail if the reductions in its cells are by productions of the
grammar, as only for these a production has to be looked up.

* `ReducesWithin` — such rows;
* `describeRow_total` — such a row is put into words;
* `Table.ofSets_total` — and so is a table of such rows;
* `Table.length_descriptions` — with one text for each state.
-/
import ShiftReduce.Proofs.Grammar.Representation
import ShiftReduce.Table.Basic

namespace ShiftReduce

variable {g : Grammar} {m : Automaton} {b : Board} {row : Row}

/-- Actions whose reductions are by productions of the grammar. -/
def ReducesWithin (g : Grammar) (actions : List (Action Nat)) : Prop :=
  ∀ rule, Action.reduce rule ∈ actions → ∃ p, g.productions[rule]? = some p

theorem explainAction_total {actions : List (Action Nat)} (h : ReducesWithin g actions)
    {action : Action Nat} (haction : action ∈ actions) :
    ∃ text, explainAction g action = .ok text := by
  cases action with
  | shift state => exact ⟨_, rfl⟩
  | goto state => exact ⟨_, rfl⟩
  | reduce rule =>
    obtain ⟨p, hp⟩ := h rule haction
    exact ⟨_, bind_eq_ok_iff.mpr ⟨p, Grammar.productionAt_of_getElem? hp, rfl⟩⟩
  | accept => exact ⟨_, rfl⟩

theorem explainCell_total {s : Symbol} (h : ReducesWithin g ((row.find? s).getD [])) (width : Nat) :
    ∃ texts, explainCell g row width s = .ok texts := by
  unfold explainCell
  split
  · exact ⟨[], rfl⟩
  · obtain ⟨parts, hparts⟩ := exists_mapM fun action haction => explainAction_total h haction
    exact ⟨_, bind_eq_ok_iff.mpr ⟨parts, hparts, rfl⟩⟩

theorem describeRow_total (h : ∀ s, ReducesWithin g ((row.find? s).getD [])) (b : Board)
    (items : List Item) (state : Nat) : ∃ text, describeRow g b items row state = .ok text := by
  obtain ⟨shifts, hshifts⟩ := exists_mapM (l := g.terminals.keys ++ [Symbol.endMark]) fun s _ =>
    explainCell_total (h s) 15
  obtain ⟨gotos, hgotos⟩ := exists_mapM (l := g.nonterminals.keys) fun s _ =>
    explainCell_total (h s) 30
  exact ⟨_, bind_eq_ok_iff.mpr ⟨shifts, hshifts, bind_eq_ok_iff.mpr ⟨gotos, hgotos, rfl⟩⟩⟩

/-- The table of rows that are written and can be put into words. -/
theorem Table.ofSets_total (hb : Board.build g m = .ok b)
    (h : ∀ n s, ReducesWithin g (b.actions n s)) :
    ∃ t, Table.ofSets g m = .ok t ∧ t.toBoard = b := by
  obtain ⟨descriptions, hdescriptions⟩ :
      ∃ texts, ((m.states.zip b.rows).zipIdx).mapM (fun place =>
        describeRow g b place.1.1 place.1.2 place.2) = .ok texts := by
    refine exists_mapM ?_
    rintro ⟨⟨items, row⟩, state⟩ hin
    have hplace := List.mem_zipIdx_iff_getElem?.mp hin
    obtain ⟨_, hrow⟩ := List.getElem?_zip_eq_some.mp hplace
    refine describeRow_total (fun s => ?_) b items state
    have hactions := h state s
    rwa [Board.actions, hrow] at hactions
  exact ⟨_, bind_eq_ok_iff.mpr ⟨b, hb, bind_eq_ok_iff.mpr ⟨descriptions, hdescriptions, rfl⟩⟩, rfl⟩

/-- There is one text for each state that has a row. -/
theorem Table.length_descriptions {t : Table} (h : Table.ofSets g m = .ok t)
    (hrows : t.rows.length = m.states.length) : t.descriptions.length = m.states.length := by
  obtain ⟨b, _, h⟩ := bind_eq_ok_iff.mp h
  obtain ⟨texts, htexts, h⟩ := bind_eq_ok_iff.mp h
  obtain rfl := Except.ok.inj h
  have hlength := (mapM_eq_ok_iff.mp htexts).length_eq
  rw [List.length_zipIdx, List.length_zip] at hlength
  have hrows : b.rows.length = m.states.length := hrows
  have htexts : texts.length = m.states.length := by omega
  exact htexts

end ShiftReduce
