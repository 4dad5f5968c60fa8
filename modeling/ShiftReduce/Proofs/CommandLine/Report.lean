/-
Reports that do not fail.

Rows are put into columns without fail if none is shorter than their header. What a text compiles to
gives such rows, since every non-terminal has its sets.

* `CommandLine.columns_total` — rows that fit their header;
* `Compiled.IsOf.exists_report` — what a text compiles to can be shown;
* `exists_traceReport` — and so can every trace.
-/
import ShiftReduce.CommandLine.Report
import ShiftReduce.Proofs.Table.Tabulation
import ShiftReduce.Proofs.Text.Columns

namespace ShiftReduce

namespace CommandLine

theorem columns_total {header : List String} {rows : List (List String)}
    (h : ∀ row ∈ rows, header.length ≤ row.length) :
    ∃ text, columns (header :: rows) = .ok text := by
  obtain ⟨text, htext⟩ := Text.exists_columns h
  exact ⟨text, by rw [columns, htext]⟩

/-- The rows of a table are as long as its header. -/
theorem columns_grid_total (t : Table) : ∃ text, columns t.grid = .ok text := by
  refine columns_total fun row hrow => ?_
  obtain ⟨⟨cells, state⟩, _, rfl⟩ := List.mem_map.mp hrow
  rw [List.length_cons, List.length_map, List.length_tail]
  omega

/-- Each of a grammar's non-terminals has a row with its sets. -/
theorem setRow_total {g : Grammar} (hg : g.Consistent) (hfirst : g.FirstSolved) (h : g.LeastSets)
    {n : Symbol} (hn : n ∈ g.nonterminals) : ∃ row, setRow g n = .ok row ∧ row.length = 3 := by
  obtain ⟨first, hf⟩ :=
    Assoc.exists_find? ((hfirst.mem_iff n).mpr (hg.mem_nonterminals_iff.mp hn).2)
  obtain ⟨follow, hf'⟩ := Assoc.exists_find? ((h.mem_follow_iff n).mpr hn)
  refine ⟨[n, ", ".intercalate first, ", ".intercalate follow], ?_, rfl⟩
  exact bind_eq_ok_iff.mpr ⟨first, SymbolSets.get_eq_ok_iff.mpr hf,
    bind_eq_ok_iff.mpr ⟨follow, SymbolSets.get_eq_ok_iff.mpr hf', rfl⟩⟩

end CommandLine

open CommandLine

/-- What a text compiles to can be shown. -/
theorem Compiled.IsOf.exists_report {c : Compiled} {full : Bool} {text : String}
    (h : c.IsOf full text) : ∃ out, report c = .ok out := by
  obtain ⟨a, htable⟩ := h.tabulated
  have hrow := fun n (hn : n ∈ c.grammar.nonterminals) =>
    setRow_total htable.consistent htable.first h.leastSets hn
  obtain ⟨rows, hrows⟩ := exists_mapM fun n hn => (hrow n hn).imp fun _ h => h.1
  obtain ⟨sets, hsets⟩ : ∃ sets, columns (["Symbol", "FIRST", "FOLLOW"] :: rows) = .ok sets := by
    refine columns_total fun row hmem => ?_
    obtain ⟨rowOf, rfl, hrowOf⟩ := exists_eq_map_of_mapM hrows
    obtain ⟨n, hn, rfl⟩ := List.mem_map.mp hmem
    obtain ⟨row, hok, hlength⟩ := hrow n hn
    obtain rfl := Except.ok.inj ((hrowOf n hn).symm.trans hok)
    exact Nat.le_of_eq hlength.symm
  obtain ⟨grid, hgrid⟩ := columns_grid_total c.table
  exact ⟨_, bind_eq_ok_iff.mpr ⟨rows, hrows, bind_eq_ok_iff.mpr ⟨sets, hsets,
    bind_eq_ok_iff.mpr ⟨grid, hgrid, rfl⟩⟩⟩⟩

/-- Every trace can be shown. -/
theorem exists_traceReport (trace : Trace) : ∃ out, traceReport trace = .ok out := by
  obtain ⟨steps, hsteps⟩ :
      ∃ steps, columns (["Step", "Stack", "Input", "Action"] :: trace.texts) = .ok steps := by
    refine columns_total fun row hmem => ?_
    obtain ⟨step, _, rfl⟩ := List.mem_map.mp hmem
    exact Nat.le_refl 4
  exact ⟨_, bind_eq_ok_iff.mpr ⟨steps, hsteps, rfl⟩⟩

end ShiftReduce
