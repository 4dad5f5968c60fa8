/-
The loops that build an automaton end.

The closure table is computed by rounds. Each round walks the lists of the table one after another,
and a list is extended while it is walked by whole lists of the same table, which can be the list
itself. The states of an automaton are expanded in the order in which they were found, and further
states are found on the way.

* `ClosureTable.UnionPass`, `ClosureTable.ends_union` — one list joins another, or itself;
* `ClosureTable.WalkPass`, `ClosureTable.ends_walk` — a list is walked to an end that moves away;
* `ClosureTable.RoundPass`, `ClosureTable.rounds_terminate` — rounds of such walks;
* `Automaton.ExpandPass`, `Automaton.expand_terminates` — the states, with those that are found.
-/
import ShiftReduce.Proofs.Automaton.Construction
import ShiftReduce.Proofs.Loop.Basic

namespace ShiftReduce

/-! ### Lists that are extended -/

/-- The member behind the first part of a list. -/
theorem getElem?_length_append {α : Type} (l l' : List α) (x : α) :
    (l ++ x :: l')[l.length]? = some x := by
  rw [List.getElem?_append_right (Nat.le_refl _), Nat.sub_self]
  rfl

namespace ClosureTable

/-- The list of a non-terminal, as it is now. -/
def listOf (table : ClosureTable) (n : Symbol) : List Item := (table.find? n).getD []

/-- One item of the list of `y` is met, and joins the list of `n` if it is not there. -/
inductive UnionPass (n y : Symbol) : ClosureTable × Nat → Pass (ClosureTable × Nat) → Prop where
  | old {table : ClosureTable} {k : Nat} {c : Item} : (table.listOf y)[k]? = some c →
    c ∈ table.listOf n → UnionPass n y (table, k) (.again (table, k + 1))
  | new {table : ClosureTable} {k : Nat} {c : Item} : (table.listOf y)[k]? = some c →
    c ∉ table.listOf n →
    UnionPass n y (table, k) (.again (table.insert n (table.listOf n ++ [c]), k + 1))
  | done {table : ClosureTable} {k : Nat} : (table.listOf y)[k]? = none →
    UnionPass n y (table, k) (.leave (table, k))

/-- One item of the list of `n` is met, and the list of the non-terminal behind its dot joins that
of `n`. -/
inductive WalkPass (n : Symbol) : ClosureTable × Nat → Pass (ClosureTable × Nat) → Prop where
  | union {table table' : ClosureTable} {k j l : Nat} {i : Item} {y : Symbol} :
    (table.listOf n)[k]? = some i → i.next? = some y → y ∈ table →
    Ends (UnionPass n y) j (table, 0) (table', l) →
    WalkPass n (table, k) (.again (table', k + 1))
  | skip {table : ClosureTable} {k : Nat} {i : Item} : (table.listOf n)[k]? = some i →
    (∀ y, i.next? = some y → y ∉ table) → WalkPass n (table, k) (.again (table, k + 1))
  | done {table : ClosureTable} {k : Nat} : (table.listOf n)[k]? = none →
    WalkPass n (table, k) (.leave (table, k))

/-- The lists of the given non-terminals are walked from their beginnings, one after another. -/
inductive Walked : List Symbol → ClosureTable → ClosureTable → Prop where
  | nil (table : ClosureTable) : Walked [] table table
  | cons {n : Symbol} {names : List Symbol} {table table' table'' : ClosureTable} {j k : Nat} :
    Ends (WalkPass n) j (table, 0) (table', k) → Walked names table' table'' →
    Walked (n :: names) table table''

/-- A round of walks. The loop goes on if a list grew. -/
inductive RoundPass : ClosureTable → Pass ClosureTable → Prop where
  | grew {table reached : ClosureTable} : Walked table.keys table reached →
    table.size < reached.size → RoundPass table (.again reached)
  | same {table reached : ClosureTable} : Walked table.keys table reached →
    ¬table.size < reached.size → RoundPass table (.leave reached)

/-! ### One run -/

theorem UnionPass.deterministic (n y : Symbol) : IsDeterministic (UnionPass n y) := by
  intro state p p' h h'
  cases h with
  | old hk hc =>
    cases h' with
    | old _ _ => rfl
    | new hk' hc' =>
      obtain rfl := Option.some.inj (hk.symm.trans hk')
      exact absurd hc hc'
    | done hk' => cases hk.symm.trans hk'
  | new hk hc =>
    cases h' with
    | old hk' hc' =>
      obtain rfl := Option.some.inj (hk.symm.trans hk')
      exact absurd hc' hc
    | new hk' _ =>
      obtain rfl := Option.some.inj (hk.symm.trans hk')
      rfl
    | done hk' => cases hk.symm.trans hk'
  | done hk =>
    cases h' with
    | old hk' _ => cases hk.symm.trans hk'
    | new hk' _ => cases hk.symm.trans hk'
    | done _ => rfl

theorem WalkPass.deterministic (n : Symbol) : IsDeterministic (WalkPass n) := by
  intro state p p' h h'
  cases h with
  | union hk hnext hy hends =>
    cases h' with
    | union hk' hnext' _ hends' =>
      obtain rfl := Option.some.inj (hk.symm.trans hk')
      obtain rfl := Option.some.inj (hnext.symm.trans hnext')
      rw [(Prod.mk.inj (hends.unique (UnionPass.deterministic n _) hends').2).1]
    | skip hk' hskip =>
      obtain rfl := Option.some.inj (hk.symm.trans hk')
      exact absurd hy (hskip _ hnext)
    | done hk' => cases hk.symm.trans hk'
  | skip hk hskip =>
    cases h' with
    | union hk' hnext hy _ =>
      obtain rfl := Option.some.inj (hk.symm.trans hk')
      exact absurd hy (hskip _ hnext)
    | skip _ _ => rfl
    | done hk' => cases hk.symm.trans hk'
  | done hk =>
    cases h' with
    | union hk' _ _ _ => cases hk.symm.trans hk'
    | skip hk' _ => cases hk.symm.trans hk'
    | done _ => rfl

theorem Walked.unique {names : List Symbol} {table reached reached' : ClosureTable}
    (h : Walked names table reached) (h' : Walked names table reached') : reached = reached' := by
  induction h with
  | nil table =>
    cases h' with
    | nil _ => rfl
  | cons hends _ ih =>
    cases h' with
    | cons hends' hrest =>
      obtain rfl := (Prod.mk.inj (hends.unique (WalkPass.deterministic _) hends').2).1
      exact ih hrest

theorem RoundPass.deterministic : IsDeterministic RoundPass := by
  intro table p p' h h'
  cases h with
  | grew hwalked hgrew =>
    cases h' with
    | grew hwalked' _ => rw [hwalked.unique hwalked']
    | same hwalked' hsame => exact absurd (hwalked.unique hwalked' ▸ hgrew) hsame
  | same hwalked hsame =>
    cases h' with
    | grew hwalked' hgrew => exact absurd (hwalked.unique hwalked' ▸ hgrew) hsame
    | same hwalked' _ => rw [hwalked.unique hwalked']

/-! ### Unions -/

variable {table : ClosureTable} {n y : Symbol}

theorem listOf_insert (table : ClosureTable) (n y : Symbol) (items : List Item) :
    listOf (table.insert n items) y = if y = n then items else table.listOf y := by
  rw [listOf, Assoc.find?_insert]
  split <;> rfl

/-- The list of `y`, of which some items were met, joins a list that is another one. -/
theorem ends_union_of_ne (hne : y ≠ n) (rest : List Item) :
    ∀ met items, table.listOf y = met ++ rest →
      Ends (UnionPass n y) rest.length (table.insert n items, met.length)
        (table.insert n (extend items rest), (table.listOf y).length) := by
  induction rest with
  | nil =>
    intro met items hmet
    rw [List.append_nil] at hmet
    have hend : (listOf (table.insert n items) y)[met.length]? = none := by
      rw [listOf_insert, if_neg hne, hmet]
      exact List.getElem?_eq_none (Nat.le_refl _)
    rw [hmet]
    exact .leave (.done hend)
  | cons c rest ih =>
    intro met items hmet
    have hc : (listOf (table.insert n items) y)[met.length]? = some c := by
      rw [listOf_insert, if_neg hne, hmet, getElem?_length_append]
    have hown : listOf (table.insert n items) n = items := by rw [listOf_insert, if_pos rfl]
    have hmet' : table.listOf y = (met ++ [c]) ++ rest := by simpa using hmet
    rw [extend]
    by_cases hin : c ∈ items
    · have hrest := ih (met ++ [c]) items hmet'
      rw [List.length_append, List.length_singleton] at hrest
      rw [if_pos hin]
      exact .again (.old hc (by rwa [hown])) hrest
    · have hrest := ih (met ++ [c]) (items ++ [c]) hmet'
      rw [List.length_append, List.length_singleton, ← Assoc.insert_insert table n items] at hrest
      have hnew := UnionPass.new hc (by rwa [hown])
      rw [hown] at hnew
      rw [if_neg hin]
      exact .again hnew hrest

/-- The list of `y` joins one that has all its items, which can be itself. -/
theorem ends_union_of_subset (rest : List Item) :
    ∀ met, table.listOf y = met ++ rest → rest ⊆ table.listOf n →
      Ends (UnionPass n y) rest.length (table, met.length)
        (table, (table.listOf y).length) := by
  induction rest with
  | nil =>
    intro met hmet _
    rw [List.append_nil] at hmet
    have hend : (table.listOf y)[met.length]? = none := by
      rw [hmet]
      exact List.getElem?_eq_none (Nat.le_refl _)
    rw [hmet]
    exact .leave (.done hend)
  | cons c rest ih =>
    intro met hmet hsub
    obtain ⟨hin, hsub⟩ := List.cons_subset.mp hsub
    have hc : (table.listOf y)[met.length]? = some c := by
      rw [hmet, getElem?_length_append]
    have hrest := ih (met ++ [c]) (by simpa using hmet) hsub
    rw [List.length_append, List.length_singleton] at hrest
    exact .again (.old hc hin) hrest

/-- A union extends a list by those items that it lacks. The list that joins is as it was when the
walk began, unless it is the one that is walked. -/
theorem ends_union {items : List Item} (hsame : y = n → table.listOf n ⊆ items) :
    ∃ j l, Ends (UnionPass n y) j (table.insert n items, 0)
      (table.insert n (extend items (table.listOf y)), l) := by
  by_cases hy : y = n
  · subst hy
    have hown : listOf (table.insert y items) y = items := by rw [listOf_insert, if_pos rfl]
    rw [extend_of_subset (hsame rfl)]
    exact ⟨_, _, ends_union_of_subset items [] hown (by rw [hown]; exact List.Subset.refl items)⟩
  · exact ⟨_, _, ends_union_of_ne hy (table.listOf y) [] items rfl⟩

/-! ### Walks -/

theorem behind_eq (table : ClosureTable) (i : Item) :
    table.behind i = match i.next? with
      | none => []
      | some y => table.listOf y := rfl

/-- A walk along a list that is extended on the way ends, and it ends with the list that is computed
by taking its items one by one. -/
theorem ends_walk {stock l : List Item} (hl : table.find? n = some l)
    (hstock : ∀ i c, c ∈ table.behind i → c ∈ stock) {steps : Nat} {done waiting : List Item}
    (h : Walking table stock done waiting) (hbegin : l ⊆ done ++ waiting)
    (hsteps : stock.length ≤ done.length + steps) :
    ∃ j k, Ends (WalkPass n) j (table.insert n (done ++ waiting), done.length)
      (table.insert n (walk table steps done waiting), k) := by
  have hown : ∀ items, listOf (table.insert n items) n = items := fun items => by
    rw [listOf_insert, if_pos rfl]
  have hlist : table.listOf n = l := by rw [listOf, hl, Option.getD_some]
  have hend : ∀ done, Ends (WalkPass n) 0 (table.insert n (done ++ []), done.length)
      (table.insert n done, done.length) := fun done => by
    rw [List.append_nil]
    exact .leave (.done (by rw [hown]; exact List.getElem?_eq_none (Nat.le_refl _)))
  induction steps generalizing done waiting with
  | zero =>
    have hlength := (h.nodup.subperm h.subset).length_le
    rw [List.length_append] at hlength
    obtain rfl : waiting = [] := List.eq_nil_of_length_eq_zero (by omega)
    rw [walk, List.append_nil]
    exact ⟨0, _, List.append_nil done ▸ hend done⟩
  | succ steps ih =>
    cases waiting with
    | nil =>
      rw [walk]
      · exact ⟨0, _, hend done⟩
      · simp
    | cons i waiting =>
      have hat : (listOf (table.insert n (done ++ i :: waiting)) n)[done.length]? = some i := by
        rw [hown, getElem?_length_append]
      obtain ⟨fresh, hfresh⟩ : ∃ fresh, fresh = extend []
          ((table.behind i).filter fun c => c ∉ done ∧ c ≠ i ∧ c ∉ waiting) := ⟨_, rfl⟩
      obtain ⟨hgrows, hstep⟩ := h.step hstock hfresh
      obtain ⟨j, k, hrest⟩ := ih hstep (List.Subset.trans hbegin hgrows.subset) (by
        rw [List.length_append, List.length_singleton]
        omega)
      -- The item's list joins the list that is walked, which comes to the fresh items behind it.
      have hextend : extend (done ++ i :: waiting) (table.behind i) =
          done ++ [i] ++ (waiting ++ fresh) := by
        rw [extend_eq_append, hfresh]
        simp
      rw [List.length_append, List.length_singleton, ← hextend] at hrest
      rw [walk, ← hfresh]
      by_cases hskip : ∀ y, i.next? = some y → y ∉ table
      · have hnone : table.behind i = [] := by
          rw [behind_eq]
          split
          · rfl
          · next y hy => rw [listOf, Assoc.find?_eq_none_iff.mpr (hskip y hy), Option.getD_none]
        rw [hnone, extend_nil] at hrest
        refine ⟨_, k, .again (.skip hat fun y hy hin => hskip y hy ?_) hrest⟩
        exact (Assoc.mem_insert_of_find? hl).mp hin
      · push Not at hskip
        obtain ⟨y, hy, hin⟩ := hskip
        have hsame : y = n → table.listOf n ⊆ done ++ i :: waiting := fun _ => hlist ▸ hbegin
        obtain ⟨j', l', hunion⟩ := ends_union hsame
        have hbehind : table.behind i = table.listOf y := by rw [behind_eq, hy]
        rw [hbehind] at hrest
        exact ⟨_, k, .again (.union hat hy ((Assoc.mem_insert_of_find? hl).mpr hin) hunion) hrest⟩

/-! ### Rounds -/

variable {g : Grammar} {a : Augmented} {full : Bool}

theorem Sound.ends_walk (h : Sound g a full table) (hn : n ∈ g.nonterminals) :
    ∃ j k, Ends (WalkPass n) j (table, 0) (table.walkAt a.size n, k) := by
  obtain ⟨l, hl⟩ := Assoc.exists_find? ((h.mem_iff n).mpr hn)
  obtain ⟨hnodup, hsub⟩ := h.within n l hl
  have hstart : Walking table a.leadingItems [] l :=
    ⟨hnodup, hsub, fun i hi => absurd hi List.not_mem_nil⟩
  have hsteps : a.leadingItems.length ≤ ([] : List Item).length + a.size := by
    rw [Augmented.length_leadingItems]
    exact Nat.le_add_left _ _
  obtain ⟨j, k, hends⟩ := ClosureTable.ends_walk hl (fun i c => h.mem_leadingItems_of_mem_behind)
    hstart (List.Subset.refl l) hsteps
  rw [List.nil_append, Assoc.insert_eq_self hl] at hends
  rw [ClosureTable.walkAt, hl]
  exact ⟨j, k, hends⟩

theorem Sound.walked (h : Sound g a full table) {names : List Symbol}
    (hnames : ∀ n ∈ names, n ∈ g.nonterminals) :
    Walked names table (table.round a.size names) := by
  induction names generalizing table with
  | nil => exact .nil table
  | cons n names ih =>
    have hn := hnames n (List.mem_cons_self ..)
    obtain ⟨j, k, hends⟩ := h.ends_walk hn
    exact .cons hends (ih (h.walkAt hn) fun m hm => hnames m (List.mem_cons_of_mem n hm))

/-- Every round but the last adds a production to a list. -/
theorem RoundPass.proceeds (g : Grammar) (a : Augmented) :
    Proceeds RoundPass (Sound g a true)
      (fun table => g.nonterminals.keys.length * a.size - table.total)
      (fun k table => table.saturate a.size k) id 1 := by
  intro table h
  have hnames : ∀ n ∈ table.keys, n ∈ g.nonterminals := fun n => (h.mem_iff n).mp
  obtain ⟨hsound, hgrows⟩ := h.round hnames
  have hwalked := h.walked hnames
  by_cases hgrew : table.size < (table.round a.size table.keys).size
  · refine .inr ⟨_, .grew hwalked hgrew, hsound, ?_, fun k => ?_⟩
    · have hgrew : table.total < (table.round a.size table.keys).total := hgrew
      have hbound := hsound.within.total_le
      have hkeys := Nat.mul_le_mul_right a.leadingItems.length hsound.length_keys_le
      rw [Augmented.length_leadingItems] at hbound hkeys
      dsimp only
      omega
    · dsimp only
      rw [saturate, if_pos hgrew]
  · refine .inl ⟨_, .same hwalked hgrew, fun k => ?_⟩
    dsimp only
    rw [saturate, if_neg hgrew]
    rfl

theorem rounds_terminate (g : Grammar) (a : Augmented) :
    Terminates RoundPass (g.nonterminals.keys.length * a.size) (initial g a)
      (closureTable g a) := by
  obtain ⟨t, hterminates, hrun⟩ :=
    (RoundPass.proceeds g a).terminates RoundPass.deterministic (sound_initial g a true)
  obtain rfl : closureTable g a = t := hrun _ (by omega)
  exact hterminates.mono (Nat.sub_le ..)

end ClosureTable

/-! ### States -/

namespace Automaton

/-- One state is expanded, and the next one is to be expanded then. The loop is left when there is
no state to expand. -/
inductive ExpandPass (g : Grammar) : Nat × Automaton → Pass (Nat × Automaton) → Prop where
  | next {n : Nat} {m m' : Automaton} {items : List Item} : m.states[n]? = some items →
    expand g m n items = .ok m' → ExpandPass g (n, m) (.again (n + 1, m'))
  | done {n : Nat} {m : Automaton} : m.states[n]? = none → ExpandPass g (n, m) (.leave (n, m))

theorem ExpandPass.deterministic (g : Grammar) : IsDeterministic (ExpandPass g) := by
  intro state p p' h h'
  cases h with
  | next hn hok =>
    cases h' with
    | next hn' hok' =>
      obtain rfl := Option.some.inj (hn.symm.trans hn')
      rw [Except.ok.inj (hok.symm.trans hok')]
    | done hn' => cases hn.symm.trans hn'
  | done hn =>
    cases h' with
    | next hn' _ => cases hn.symm.trans hn'
    | done _ => rfl

variable {g : Grammar} {a : Augmented} {full : Bool} {m : Automaton}

/-- Every state is expanded once, and there are no more states than sets of items. The number of the
next state is that of all states in the end. -/
theorem ExpandPass.proceeds (hg : g.Consistent) (ha : Augmented.ofGrammar g = .ok a) (full : Bool) :
    Proceeds (ExpandPass g) (fun state => Expanding g a full state.1 state.2)
      (fun state => Nat.pow 2 (itemCount a) - state.1)
      (fun k state => (fun m => (m.states.length, m)) <$> expandFrom g k state.1 state.2)
      .ok 0 := by
  rintro ⟨n, m⟩ h
  cases hn : m.states[n]? with
  | none =>
    have hlength : m.states.length = n :=
      Nat.le_antisymm (List.getElem?_eq_none_iff.mp hn) h.le
    refine .inl ⟨(n, m), .done hn, fun k => map_eq_ok_iff.mpr ⟨m, ?_, by rw [hlength]⟩⟩
    cases k with
    | zero => rfl
    | succ k =>
      dsimp only
      rw [Nat.add_zero, expandFrom, hn]
  | some items =>
    obtain ⟨m', hok, h'⟩ := h.step hg ha hn
    refine .inr ⟨(n + 1, m'), .next hn hok, h', ?_, fun k => ?_⟩
    · have hle := Nat.le_trans h'.le (h'.coherent.length_states_le h'.reached)
      dsimp only
      omega
    · dsimp only
      rw [expandFrom, hn]
      dsimp only
      rw [hok]
      rfl

theorem expand_terminates (hg : g.Consistent) (ha : Augmented.ofGrammar g = .ok a)
    (h : build g a full = .ok m) :
    Terminates (ExpandPass g) (Nat.pow 2 (itemCount a)) (0, initial g a full)
      (m.states.length, m) := by
  obtain ⟨t, hterminates, hrun⟩ := (ExpandPass.proceeds hg ha full).terminates
    (ExpandPass.deterministic g) (s := (0, initial g a full)) (expanding_initial g a full)
  have hbuilt := hrun (Nat.pow 2 (itemCount a)) (Nat.le_refl _)
  dsimp only at hbuilt
  rw [← build_eq, h] at hbuilt
  obtain rfl := Except.ok.inj hbuilt
  exact hterminates

end Automaton

end ShiftReduce
