/-
Compilations fail in one way only.

A text without a readable rule is the one thing that does not compile. Every other text does, as
checks, sets, automaton and table look up nothing that is not there; whatever the messages about a
table look up is there too.

* `IsMalformed` — rule texts that cannot be read;
* `Compiled.IsWhole` — what a text compiles to, with all that is looked up of it in messages;
* `isWhole_of_isOf` — nothing of this is ever missing;
* `compile_cases` — there are no rules, or the text compiles;
* `Settings.compile_outcome` — a compilation ends with no rules, or with such a whole.
-/
import ShiftReduce.Proofs.Table.Tabulation
import ShiftReduce.Settings

namespace ShiftReduce

/-- Rule texts that cannot be read. -/
def IsMalformed (rule : String) : Prop := ∃ cause, readRule rule.toList = .error cause

/-- What a text compiles to. Every state is put into words, and a cell that is noted as a conflict
holds one. -/
structure Compiled.IsWhole (c : Compiled) (full : Bool) (text : String) : Prop
    extends c.IsOf full text where
  described : ∀ n < c.automaton.states.length, ∃ words, c.table.descriptionAt n = .ok words
  conflicts : ∀ n s, (n, s) ∈ c.table.conflicts →
    ∃ parts, c.table.cellAt n s = .ok (some (.conflict parts))

/-- A cell with two actions or more is in conflict. -/
theorem exists_conflict_of_length {actions : List (Action Nat)} (h : 2 ≤ actions.length) :
    ∃ parts, Cell.ofActions? actions = some (.conflict parts) := by
  match actions with
  | [] => exact absurd h (Nat.not_succ_le_zero 1)
  | [_] => exact absurd h (Nat.not_succ_le_self 1)
  | a :: b :: rest => exact ⟨(a :: b :: rest).map Cell.single, rfl⟩

theorem Table.descriptionAt_of_lt {t : Table} {n : Nat} (h : n < t.descriptions.length) :
    t.descriptionAt n = .ok t.descriptions[n] := by
  have hpos : ¬(n : Int) < 0 := by omega
  rw [descriptionAt, if_neg hpos, Int.toNat_natCast, List.getElem?_eq_getElem h]

theorem isWhole_of_isOf {c : Compiled} {full : Bool} {text : String} (h : c.IsOf full text) :
    c.IsWhole full text where
  toIsOf := h
  described n hn := ⟨_, Table.descriptionAt_of_lt (h.length_descriptions ▸ hn)⟩
  conflicts n s hconflict := by
    obtain ⟨a, htable⟩ := h.tabulated
    have htwo : 2 ≤ (c.table.actions n s).length := (htable.cells.2.1.mem_iff n s).mp hconflict
    -- Where there are actions there is a state, which has its row.
    have hpos : 0 < (c.table.actions n s).length := by omega
    obtain ⟨action, haction⟩ := List.exists_mem_of_length_pos hpos
    have hactions := htable.actionsAt_eq (s := s) (htable.lt_of_mem_actions haction)
    obtain ⟨parts, hparts⟩ := exists_conflict_of_length htwo
    refine ⟨parts, ?_⟩
    rw [Table.cellAt, hactions]
    exact congrArg Except.ok hparts

theorem compile_of_productions_eq_nil {text : String} (full : Bool)
    (h : (Grammar.parse text).1.productions = []) : (compile full text).2 = .error .noRules := by
  rw [compile]
  dsimp only
  rw [if_pos (List.isEmpty_iff.mpr h)]

theorem exists_compile_of_productions_ne_nil {text : String} (full : Bool)
    (h : (Grammar.parse text).1.productions ≠ []) :
    ∃ c, (compile full text).2 = .ok c ∧ c.IsOf full text := by
  obtain ⟨g, a, hall⟩ := exists_compile_isOf h
  obtain ⟨warnings, m, t, hcompile, _, hof⟩ := hall full
  exact ⟨_, congrArg Prod.snd hcompile, hof⟩

/-- A text has no rules, or compiles. -/
theorem compile_cases (full : Bool) (text : String) :
    (compile full text).2 = .error .noRules ∨
      ∃ c, (compile full text).2 = .ok c ∧ c.IsOf full text := by
  by_cases h : (Grammar.parse text).1.productions = []
  · exact .inl (compile_of_productions_eq_nil full h)
  · exact .inr (exists_compile_of_productions_ne_nil full h)

variable {m : Type → Type} [Monad m] {σ : Type}

/-- Without listings, a compilation is over when the text is compiled. -/
theorem Settings.compile_eq (s : Settings σ) (files : FileAccess m) (text : String)
    (hname : s.listingName? = none) :
    s.compile files text = pure
      { warnings := (ShiftReduce.compile s.isFull text).1
        entries := (ShiftReduce.compile s.isFull text).1.map Warning.entry
        outcome := (ShiftReduce.compile s.isFull text).2.mapError .fault } := by
  rw [Settings.compile]
  obtain ⟨warnings, outcome⟩ := ShiftReduce.compile s.isFull text
  cases outcome with
  | error fault => rfl
  | ok c =>
    dsimp only
    rw [hname]
    rfl

/-- Without listings, a compilation ends with no rules if all rules of the text are malformed, or if
there are none, and otherwise with all that a text compiles to. -/
theorem Settings.compile_outcome (s : Settings σ) (files : FileAccess m) (text : String)
    (hname : s.listingName? = none) :
    ∃ compilation : Compilation, s.compile files text = pure compilation ∧
      (compilation.outcome = .error (.fault .noRules) ↔
        ∀ rule ∈ splitRules (normalize text), IsMalformed rule) ∧
      ((∃ rule ∈ splitRules (normalize text), ¬IsMalformed rule) →
        ∃ c, compilation.outcome = .ok c ∧ c.IsWhole s.isFull text) := by
  refine ⟨_, s.compile_eq files text hname, ?_⟩
  have hrules := Grammar.productions_parse_eq_nil_iff text
  by_cases hnone : (Grammar.parse text).1.productions = []
  · rw [compile_of_productions_eq_nil s.isFull hnone]
    refine ⟨⟨fun _ => hrules.mp hnone, fun _ => rfl⟩, ?_⟩
    rintro ⟨rule, hrule, hread⟩
    exact absurd (hrules.mp hnone rule hrule) hread
  · obtain ⟨c, hcompile, hof⟩ := exists_compile_of_productions_ne_nil s.isFull hnone
    rw [hcompile]
    refine ⟨⟨fun hfailed => ?_, fun hmalformed => ?_⟩, fun _ => ⟨c, rfl, isWhole_of_isOf hof⟩⟩
    · cases hfailed
    · exact absurd (hrules.mpr hmalformed) hnone

/-- Malformed rules, an undefined symbol, an endless one, a rule that is repeated and one that is
out of reach, with every production in state 0. -/
theorem Settings.compile_outcome_tangled :
    (⟨(), none, some true⟩ : Settings Unit).listingName? = none ∧
      ∃ compilation : Compilation,
        (⟨(), none, some true⟩ : Settings Unit).compile Directory.access
            "junk S -> S A b S -> S A b T -> a | ε U -> $" = pure compilation ∧
          ∃ c, compilation.outcome = .ok c ∧
            c.IsWhole true "junk S -> S A b S -> S A b T -> a | ε U -> $" := by
  refine ⟨rfl, ?_⟩
  obtain ⟨compilation, hcompile, _, hok⟩ := Settings.compile_outcome
    (⟨(), none, some true⟩ : Settings Unit) Directory.access
    "junk S -> S A b S -> S A b T -> a | ε U -> $" rfl
  refine ⟨compilation, hcompile, hok ⟨"S -> S A b", by decide +kernel, ?_⟩⟩
  rintro ⟨cause, hcause⟩
  have hread : readRule "S -> S A b".toList = .ok [⟨"S", ["S", "A", "b"]⟩] := by decide
  cases hcause.symm.trans hread

end ShiftReduce
