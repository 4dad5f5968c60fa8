/-
Closure tables are complete, and one union for each item of a kernel closes it.

* `ClosureTable.Walking`, `ClosureTable.walk_spec` — a walk ends with a list that holds all that
  stands behind its items;
* `ClosureTable.Sound` — tables whose lists hold nothing but what can be reached, and all
  productions of their own non-terminals;
* `ClosureTable.Sound.saturate` — rounds up to the bound end in a table whose lists are closed;
* `closureTable_spec` — so the closure table of a grammar is sound and closed;
* `mem_closeKernel_iff` — a closed kernel holds what its items reach without reading a symbol.
-/
import ShiftReduce.Automaton.Closure
import ShiftReduce.Proofs.Automaton.Moves
import ShiftReduce.Proofs.Growth

namespace ShiftReduce

namespace ClosureTable

variable {table table' : ClosureTable} {stock : List Item}

theorem mem_behind_iff {i c : Item} :
    c ∈ table.behind i ↔ ∃ n, i.next? = some n ∧ table.Has n c := by
  unfold behind Assoc.Has
  cases i.next? with
  | none => simp
  | some n =>
    simp only [Option.some_inj, exists_eq_left']
    cases table.find? n <;> simp

/-! ### Walking along a list -/

/-- What holds of the items that are done and of those that wait, at every moment of a walk. -/
structure Walking (table : ClosureTable) (stock done waiting : List Item) : Prop where
  nodup : (done ++ waiting).Nodup
  subset : done ++ waiting ⊆ stock
  closed : ∀ i ∈ done, ∀ c ∈ table.behind i, c ∈ done ++ waiting

/-- One item is done, and what stands behind it and was not met before joins those that wait. -/
theorem Walking.step (hstock : ∀ i c, c ∈ table.behind i → c ∈ stock) {done waiting : List Item}
    {i : Item} (h : Walking table stock done (i :: waiting)) {fresh : List Item}
    (hfresh : fresh = extend [] ((table.behind i).filter fun c => c ∉ done ∧ c ≠ i ∧ c ∉ waiting)) :
    done ++ i :: waiting <+: done ++ [i] ++ (waiting ++ fresh) ∧
      Walking table stock (done ++ [i]) (waiting ++ fresh) := by
  have hmem : ∀ c, c ∈ fresh ↔ c ∈ table.behind i ∧ c ∉ done ∧ c ≠ i ∧ c ∉ waiting := by
    intro c
    rw [hfresh, mem_extend, List.mem_filter]
    simp
  have hnew : done ++ [i] ++ (waiting ++ fresh) = done ++ i :: waiting ++ fresh := by simp
  rw [hnew]
  have hbegin : done ++ i :: waiting <+: done ++ i :: waiting ++ fresh := List.prefix_append _ fresh
  refine ⟨hbegin, ?_, ?_, ?_⟩ <;> rw [hnew]
  · refine List.nodup_append.mpr ⟨h.nodup, hfresh ▸ nodup_extend List.nodup_nil _, ?_⟩
    rintro c hc d hd rfl
    obtain ⟨_, hdone, hi, hwaiting⟩ := (hmem c).mp hd
    simp only [List.mem_append, List.mem_cons] at hc
    rcases hc with hc | hc | hc
    · exact hdone hc
    · exact hi hc
    · exact hwaiting hc
  · exact List.append_subset.mpr ⟨h.subset, fun c hc => hstock i c ((hmem c).mp hc).1⟩
  · intro j hj c hc
    rcases List.mem_append.mp hj with hj | hj
    · exact hbegin.subset (h.closed j hj c hc)
    · obtain rfl := List.mem_singleton.mp hj
      rw [List.mem_append, hmem]
      by_cases hin : c ∈ done ++ j :: waiting
      · exact .inl hin
      · simp only [List.mem_append, List.mem_cons, not_or] at hin
        exact .inr ⟨hc, hin⟩

/-- A walk ends with a list without repeats that holds all that stands behind its items. There are
steps enough if the stock has no more items than are done and to be taken. -/
theorem walk_spec (hstock : ∀ i c, c ∈ table.behind i → c ∈ stock) {steps : Nat}
    {done waiting : List Item} (h : Walking table stock done waiting)
    (hsteps : stock.length ≤ done.length + steps) :
    done ++ waiting <+: walk table steps done waiting ∧
      Walking table stock (walk table steps done waiting) [] := by
  induction steps generalizing done waiting with
  | zero =>
    -- The stock is used up, so nothing waits any more.
    have hlength := (h.nodup.subperm h.subset).length_le
    rw [List.length_append] at hlength
    obtain rfl : waiting = [] := List.eq_nil_of_length_eq_zero (by omega)
    rw [walk, List.append_nil]
    exact ⟨List.prefix_refl done, h⟩
  | succ steps ih =>
    cases waiting with
    | nil =>
      rw [walk, List.append_nil]
      · exact ⟨List.prefix_refl done, h⟩
      · simp
    | cons i waiting =>
      obtain ⟨hbegin, hstep⟩ := h.step hstock rfl
      have hsteps' : stock.length ≤ (done ++ [i]).length + steps := by
        rw [List.length_append, List.length_singleton]
        omega
      obtain ⟨hbegin', hend⟩ := ih hstep hsteps'
      rw [walk]
      exact ⟨hbegin.trans hbegin', hend⟩

/-- What holds of the items that a walk starts with, and of those that stand behind such items,
holds of all items that it ends with. -/
theorem walk_induction {P : Item → Prop} (behind : ∀ i c, P i → c ∈ table.behind i → P c)
    {steps : Nat} {done waiting : List Item} (hdone : ∀ i ∈ done, P i)
    (hwaiting : ∀ i ∈ waiting, P i) : ∀ i ∈ walk table steps done waiting, P i := by
  induction steps generalizing done waiting with
  | zero =>
    intro i hi
    rcases List.mem_append.mp hi with hi | hi
    · exact hdone i hi
    · exact hwaiting i hi
  | succ steps ih =>
    cases waiting with
    | nil =>
      rw [walk]
      · exact hdone
      · simp
    | cons i waiting =>
      rw [walk]
      have hi : P i := hwaiting i (List.mem_cons_self ..)
      refine ih (fun j hj => ?_) fun j hj => ?_
      · rcases List.mem_append.mp hj with hj | hj
        · exact hdone j hj
        · exact List.mem_singleton.mp hj ▸ hi
      · rcases List.mem_append.mp hj with hj | hj
        · exact hwaiting j (List.mem_cons_of_mem i hj)
        · rw [mem_extend, List.mem_filter] at hj
          rcases hj with hj | hj
          · cases hj
          · exact behind i j hi hj.1

/-! ### Rounds -/

/-- Tables with a list for each non-terminal, which holds its productions and nothing but what
they reach without reading a symbol. -/
structure Sound (g : Grammar) (a : Augmented) (full : Bool) (table : ClosureTable) : Prop where
  mem_iff : ∀ s, s ∈ table ↔ s ∈ g.nonterminals
  own : ∀ n ∈ g.nonterminals, ∀ i ∈ a.leadingItems, i.rule.name = n → table.Has n i
  within : table.Within a.leadingItems
  reached : ∀ n i, table.Has n i →
    i ∈ (itemNfa g a full).εClosure {k | k ∈ a.leadingItems ∧ k.rule.name = n}

/-- The table after one list was walked. -/
def walkAt (steps : Nat) (table : ClosureTable) (n : Symbol) : ClosureTable :=
  table.insert n (walk table steps [] ((table.find? n).getD []))

variable {g : Grammar} {a : Augmented} {full : Bool} {n : Symbol}

theorem Sound.length_keys_le (h : Sound g a full table) :
    table.keys.length ≤ g.nonterminals.keys.length :=
  (table.nodup.subperm fun s hs => (h.mem_iff s).mp hs).length_le

theorem Sound.mem_leadingItems_of_mem_behind (h : Sound g a full table) {i c : Item}
    (hc : c ∈ table.behind i) : c ∈ a.leadingItems := by
  obtain ⟨n, _, l, hl, hmem⟩ := mem_behind_iff.mp hc
  exact (h.within n l hl).2 hmem

theorem Sound.mem_εClosure_of_mem_behind (h : Sound g a full table) {S : Set Item} {i c : Item}
    (hi : i ∈ (itemNfa g a full).εClosure S) (hc : c ∈ table.behind i) :
    c ∈ (itemNfa g a full).εClosure S := by
  obtain ⟨n, hnext, hhas⟩ := mem_behind_iff.mp hc
  have hn := (h.mem_iff n).mp hhas.mem
  -- The induction is on how the item is reached from the productions of its list.
  have hreached := h.reached n c hhas
  clear hhas hc
  induction hreached with
  | base k hk => exact εNFA.εClosure.step i k ⟨n, hn, hnext, hk⟩ hi
  | step k k' hstep _ ih => exact εNFA.εClosure.step k k' hstep ih

/-- Walking a list only extends it, and leaves it closed. -/
theorem Sound.walk (h : Sound g a full table) {l : List Item} (hl : table.find? n = some l) :
    l <+: walk table a.size [] l ∧ (walk table a.size [] l).Nodup ∧
      ∀ i ∈ walk table a.size [] l, ∀ c ∈ table.behind i, c ∈ walk table a.size [] l := by
  obtain ⟨hnodup, hsub⟩ := h.within n l hl
  have hsteps : a.leadingItems.length ≤ ([] : List Item).length + a.size := by
    rw [Augmented.size, Augmented.leadingItems, List.length_map, List.length_zipIdx]
    exact Nat.le_add_left _ _
  have hstart : Walking table a.leadingItems [] l :=
    ⟨hnodup, hsub, fun i hi => absurd hi List.not_mem_nil⟩
  obtain ⟨hbegin, hend⟩ := walk_spec (fun i c => h.mem_leadingItems_of_mem_behind) hstart hsteps
  have hnodup' := hend.nodup
  have hclosed := hend.closed
  rw [List.append_nil] at hnodup' hclosed
  exact ⟨hbegin, hnodup', hclosed⟩

theorem Sound.grows (h : Sound g a full table) (hn : n ∈ g.nonterminals) :
    table.Grows (table.walkAt a.size n) := by
  obtain ⟨l, hl⟩ := Assoc.exists_find? ((h.mem_iff n).mpr hn)
  rw [walkAt, hl]
  exact .insert hl (h.walk hl).1

theorem Sound.walkAt (h : Sound g a full table) (hn : n ∈ g.nonterminals) :
    Sound g a full (table.walkAt a.size n) := by
  have hgrows := h.grows hn
  obtain ⟨l, hl⟩ := Assoc.exists_find? ((h.mem_iff n).mpr hn)
  have hfind : ∀ m, (table.walkAt a.size n).find? m =
      if m = n then some (ClosureTable.walk table a.size [] l) else table.find? m := by
    intro m
    rw [ClosureTable.walkAt, Assoc.find?_insert, hl]
    rfl
  refine ⟨fun s => ?_, fun m hm i hi hname => hgrows.has (h.own m hm i hi hname), ?_, ?_⟩
  · rw [Assoc.mem_def, ← hgrows.keys_eq]
    exact h.mem_iff s
  · intro m l' hl'
    rw [hfind] at hl'
    split at hl'
    · obtain rfl := Option.some.inj hl'
      refine ⟨(h.walk hl).2.1, ?_⟩
      exact walk_induction (P := (· ∈ a.leadingItems))
        (fun i c _ => h.mem_leadingItems_of_mem_behind) (fun i hi => absurd hi List.not_mem_nil)
        (fun i hi => (h.within n l hl).2 hi)
    · exact h.within m l' hl'
  · rintro m i ⟨l', hl', hi⟩
    rw [hfind] at hl'
    split at hl'
    · next hm =>
      obtain rfl := Option.some.inj hl'
      subst hm
      refine walk_induction
        (P := (· ∈ (itemNfa g a full).εClosure {k | k ∈ a.leadingItems ∧ k.rule.name = m}))
        (fun i c hi hc => ?_) (fun i hi => absurd hi List.not_mem_nil)
        (fun i hi => h.reached m i ⟨l, hl, hi⟩) i hi
      exact h.mem_εClosure_of_mem_behind hi hc
    · exact h.reached m i ⟨l', hl', hi⟩

/-- Tables whose lists hold all that stands behind their items. -/
def Closed (table : ClosureTable) : Prop :=
  ∀ n i c, table.Has n i → c ∈ table.behind i → table.Has n c

/-- A round keeps a table sound and extends its lists. -/
theorem Sound.round (h : Sound g a full table) {names : List Symbol}
    (hnames : ∀ n ∈ names, n ∈ g.nonterminals) :
    Sound g a full (table.round a.size names) ∧ table.Grows (table.round a.size names) := by
  induction names generalizing table with
  | nil => exact ⟨h, .refl table⟩
  | cons n names ih =>
    have hn := hnames n (List.mem_cons_self ..)
    obtain ⟨hsound, hgrows⟩ := ih (h.walkAt hn) fun m hm => hnames m (List.mem_cons_of_mem n hm)
    exact ⟨hsound, (h.grows hn).trans hgrows⟩

/-- A round that extends no list changes nothing in any of its walks. -/
theorem Sound.walkAt_eq (h : Sound g a full table) {names : List Symbol}
    (hnames : ∀ n ∈ names, n ∈ g.nonterminals) (heq : table.round a.size names = table) :
    ∀ n ∈ names, table.walkAt a.size n = table := by
  induction names with
  | nil => exact fun n hn => absurd hn List.not_mem_nil
  | cons n names ih =>
    have hn := hnames n (List.mem_cons_self ..)
    have hrest : ∀ m ∈ names, m ∈ g.nonterminals := fun m hm =>
      hnames m (List.mem_cons_of_mem n hm)
    have hgrows := ((h.walkAt hn).round hrest).2
    have hfold : (table.walkAt a.size n).round a.size names = table := heq
    rw [hfold] at hgrows
    have hsame := hgrows.antisymm (h.grows hn)
    rw [hsame] at hfold
    intro m hm
    rcases List.mem_cons.mp hm with rfl | hm
    · exact hsame
    · exact ih hrest hfold m hm

theorem Sound.closed (h : Sound g a full table)
    (heq : ∀ n ∈ g.nonterminals, table.walkAt a.size n = table) : table.Closed := by
  rintro n i c ⟨l, hl, hi⟩ hc
  have hsame := heq n ((h.mem_iff n).mp (Assoc.mem_of_find? hl))
  -- A walk ends with a closed list, and this one ends with the list that it started with.
  have hlist : ClosureTable.walk table a.size [] l = l := by
    have hfind := congrArg (·.find? n) hsame
    simp only [ClosureTable.walkAt, Assoc.find?_insert, if_pos, hl, Option.getD_some] at hfind
    exact Option.some.inj hfind
  have hspec := (h.walk hl).2.2
  rw [hlist] at hspec
  exact ⟨l, hl, hspec i hi c hc⟩

/-- Rounds up to the bound end in a closed table: each round but the last adds an item, and the
leading items bound how many there can be. -/
theorem Sound.saturate (h : Sound g a full table) {rounds : Nat}
    (hrounds : table.keys.length * a.leadingItems.length < rounds + table.total) :
    Sound g a full (table.saturate a.size rounds) ∧ (table.saturate a.size rounds).Closed := by
  induction rounds generalizing table with
  -- No lists over the stock have so many members.
  | zero =>
    have hbound := h.within.total_le
    omega
  | succ rounds ih =>
    have hnames : ∀ n ∈ table.keys, n ∈ g.nonterminals := fun n => (h.mem_iff n).mp
    obtain ⟨hsound, hgrows⟩ := h.round hnames
    rw [ClosureTable.saturate]
    split
    · next hgrew =>
      have hgrew : table.total < (table.round a.size table.keys).total := hgrew
      exact ih hsound (by rw [← hgrows.keys_eq]; omega)
    · next hsame =>
      have hsame : ¬table.total < (table.round a.size table.keys).total := hsame
      have heq := (hgrows.eq_of_total_le (by omega)).symm
      rw [heq]
      exact ⟨h, h.closed fun n hn => h.walkAt_eq hnames heq n ((h.mem_iff n).mpr hn)⟩

/-! ### The table of a grammar -/

/-- Every leading item comes to the end of the list of its name, if that has one. -/
theorem find?_foldl_append (is : List Item) (table : ClosureTable) (n : Symbol) :
    (is.foldl (fun table i =>
      if i.rule.name ∈ table then table.append i.rule.name i else table) table).find? n =
      (table.find? n).map (· ++ is.filter (·.rule.name = n)) := by
  induction is generalizing table with
  | nil => simp
  | cons i is ih =>
    rw [List.foldl_cons, ih, List.filter_cons]
    by_cases hn : i.rule.name = n
    · subst hn
      rw [if_pos (decide_eq_true rfl)]
      split
      · next hmem =>
        obtain ⟨l, hl⟩ := Assoc.exists_find? hmem
        rw [Assoc.append, Assoc.find?_alter, if_pos rfl, hl]
        simp
      · next hmem =>
        rw [Assoc.find?_eq_none_iff.mpr hmem]
        rfl
    · rw [if_neg fun h => hn (of_decide_eq_true h)]
      split
      · rw [Assoc.append, Assoc.find?_alter, if_neg fun h => hn h.symm]
      · rfl

theorem find?_initial (n : Symbol) :
    (initial g a).find? n =
      if n ∈ g.nonterminals then some (a.leadingItems.filter (·.rule.name = n)) else none := by
  unfold initial
  dsimp only
  rw [find?_foldl_append, Assoc.find?_foldl_insert, Assoc.find?_empty]
  by_cases hn : n ∈ g.nonterminals
  · rw [if_pos hn, if_pos (Assoc.mem_def.mp hn)]
    rfl
  · rw [if_neg hn, if_neg fun h => hn (Assoc.mem_def.mpr h)]
    rfl

theorem sound_initial (g : Grammar) (a : Augmented) (full : Bool) :
    Sound g a full (initial g a) := by
  refine ⟨fun s => ?_, fun n hn i hi hname => ?_, fun n l hl => ?_, ?_⟩
  · rw [← Assoc.find?_isSome_iff, find?_initial]
    split <;> simpa
  · refine ⟨_, by rw [find?_initial, if_pos hn], ?_⟩
    exact List.mem_filter.mpr ⟨hi, decide_eq_true hname⟩
  · rw [find?_initial] at hl
    split at hl
    · obtain rfl := Option.some.inj hl
      exact ⟨a.nodup_leadingItems.filter _, fun i hi => (List.mem_filter.mp hi).1⟩
    · cases hl
  · rintro n i ⟨l, hl, hi⟩
    rw [find?_initial] at hl
    split at hl
    · obtain rfl := Option.some.inj hl
      obtain ⟨hi, hname⟩ := List.mem_filter.mp hi
      exact εNFA.εClosure.base i ⟨hi, of_decide_eq_true hname⟩
    · cases hl

end ClosureTable

open ClosureTable

variable {g : Grammar} {a : Augmented}

theorem closureTable_spec (g : Grammar) (a : Augmented) (full : Bool) :
    Sound g a full (closureTable g a) ∧ (closureTable g a).Closed := by
  refine Sound.saturate (sound_initial g a full) ?_
  rw [Augmented.length_leadingItems]
  have hle := Nat.mul_le_mul_right a.size (sound_initial g a full).length_keys_le
  omega

/-! ### Closing a kernel -/

theorem mem_foldl_extend {f : Item → List Item} {kernel items : List Item} {j : Item} :
    j ∈ kernel.foldl (fun items i => extend items (f i)) items ↔
      j ∈ items ∨ ∃ i ∈ kernel, j ∈ f i := by
  induction kernel generalizing items with
  | nil => simp
  | cons i kernel ih =>
    rw [List.foldl_cons, ih, mem_extend, or_assoc]
    simp

theorem nodup_closeKernel {table : ClosureTable} {kernel : List Item} (h : kernel.Nodup) :
    (closeKernel table kernel).Nodup := by
  have hfold : ∀ is items : List Item, items.Nodup →
      (is.foldl (fun items i => extend items (table.behind i)) items).Nodup := by
    intro is
    induction is with
    | nil => exact fun items hitems => hitems
    | cons i is ih => exact fun items hitems => ih _ (nodup_extend hitems _)
  exact hfold kernel kernel h

/-- One union for each item of a kernel gives all that the kernel reaches without a symbol, as the
lists of the table are closed themselves. -/
theorem mem_closeKernel_iff (full : Bool) {kernel : List Item} {j : Item} :
    j ∈ closeKernel (closureTable g a) kernel ↔
      j ∈ (itemNfa g a full).εClosure {i | i ∈ kernel} := by
  obtain ⟨hsound, hclosed⟩ := closureTable_spec g a full
  rw [closeKernel, mem_foldl_extend]
  constructor
  · rintro (hj | ⟨i, hi, hj⟩)
    · exact εNFA.εClosure.base j hj
    · exact hsound.mem_εClosure_of_mem_behind (εNFA.εClosure.base i hi) hj
  · intro hj
    induction hj with
    | base i hi => exact .inl hi
    | step i j hij _ ih =>
      obtain ⟨n, hn, hnext, hleading, hname⟩ := hij
      -- The item before is in the kernel, or in a list of the table that holds this one too.
      have hbehind : j ∈ (closureTable g a).behind i :=
        mem_behind_iff.mpr ⟨n, hnext, hsound.own n hn j hleading hname⟩
      rcases ih with hi | ⟨k, hk, hi⟩
      · exact .inr ⟨i, hi, hbehind⟩
      · obtain ⟨m, hm, hhas⟩ := mem_behind_iff.mp hi
        exact .inr ⟨k, hk, mem_behind_iff.mpr ⟨m, hm, hclosed m i j hhas hbehind⟩⟩

end ShiftReduce
