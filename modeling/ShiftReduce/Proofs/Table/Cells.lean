/-
What the cells of a table hold.

A cell holds the action of the transition on its symbol, or acceptance in the final state, and
behind it the reductions that the follow sets allow, in the order of the state's items. The cells
with two actions or more are the conflicts.

* `Board.actions_put`, `Board.actions_placeReduction` — what one change does to the cells;
* `Board.cell_placeReduction`, `Board.conflicts_placeReduction` — a reduction joins its cell, which
  is noted as a conflict if it was not empty;
* `Board.Noted` — the conflicts that are noted are the cells with two actions or more;
* `moveActions` — what a cell holds beside reductions;
* `Placed` — the cells while the transitions are written, one after another;
* `reductionOn`, `reductions_at` — the reductions in a cell, one for each complete item;
* `Board.build_ok`, `Board.build_total` — the cells of an automaton's table, which is written
  without fail.
-/
import ShiftReduce.Table.Basic
import ShiftReduce.Proofs.Automaton.Construction
import ShiftReduce.Proofs.Saturation

namespace ShiftReduce

variable {g : Grammar} {m : Automaton}

namespace Board

variable {b : Board} {n k : Nat} {s s' : Symbol} {action : Action Nat}

/-! ### Single changes -/

theorem actions_blank (size n : Nat) (s : Symbol) : (blank size).actions n s = [] := by
  rw [actions, blank, List.getElem?_replicate]
  split <;> rfl

theorem actions_put (hn : n < b.rows.length) :
    (b.put n s action).actions k s' = if k = n ∧ s' = s then [action] else b.actions k s' := by
  rw [actions, actions, put, List.getElem?_modify]
  by_cases hk : n = k
  · subst hk
    rw [List.getElem?_eq_getElem hn]
    by_cases hs : s' = s <;> simp [Assoc.find?_insert, hs]
  · simp [hk, Ne.symm hk]

theorem length_put : (b.put n s action).rows.length = b.rows.length := List.length_modify ..

theorem actions_placeReduction {rule : Nat} (hn : n < b.rows.length) :
    (b.placeReduction (n, s, rule)).actions k s' =
      if k = n ∧ s' = s then b.actions k s' ++ [.reduce rule] else b.actions k s' := by
  unfold actions
  rw [placeReduction, List.getElem?_modify]
  by_cases hk : n = k
  · subst hk
    rw [List.getElem?_eq_getElem hn]
    by_cases hs : s' = s
    · subst hs
      simp [Assoc.append, Assoc.find?_alter]
    · simp [Assoc.append, Assoc.find?_alter, hs]
  · simp [hk, Ne.symm hk]

theorem length_placeReduction {r : Nat × Symbol × Nat} :
    (b.placeReduction r).rows.length = b.rows.length := List.length_modify ..

/-- The cell for a state and a symbol, if it is not empty. -/
def cell (b : Board) (n : Nat) (s : Symbol) : Option (Cell Nat) := Cell.ofActions? (b.actions n s)

/-- A reduction joins its own cell, and the other cells stay as they are. -/
theorem cell_placeReduction {rule : Nat} (hn : n < b.rows.length) :
    (b.placeReduction (n, s, rule)).cell k s' =
      if k = n ∧ s' = s then some (Cell.join (b.cell n s) (.reduce rule)) else b.cell k s' := by
  rw [cell, actions_placeReduction hn]
  split
  · next hcell =>
    obtain ⟨rfl, rfl⟩ := hcell
    exact Cell.ofActions?_concat _ _
  · rfl

theorem conflicts_placeReduction_eq (b : Board) (n : Nat) (s : Symbol) (rule : Nat) :
    (b.placeReduction (n, s, rule)).conflicts =
      if (b.actions n s).isEmpty then b.conflicts else extend b.conflicts [(n, s)] := rfl

/-- A cell that was not empty is a conflict from then on, and is noted once. -/
theorem conflicts_placeReduction (b : Board) (n : Nat) (s : Symbol) (rule : Nat) :
    (b.placeReduction (n, s, rule)).conflicts =
      if (b.cell n s).isSome ∧ (n, s) ∉ b.conflicts then b.conflicts ++ [(n, s)]
      else b.conflicts := by
  have hcell : (b.cell n s).isSome = !(b.actions n s).isEmpty := by
    unfold cell
    match b.actions n s with
    | [] => rfl
    | [_] => rfl
    | _ :: _ :: _ => rfl
  rw [conflicts_placeReduction_eq, hcell]
  cases (b.actions n s).isEmpty with
  | true => simp
  | false => by_cases hnoted : (n, s) ∈ b.conflicts <;> simp [extend, hnoted]

/-- The conflicts that are noted are the cells with two actions or more, each noted once. -/
structure Noted (b : Board) : Prop where
  nodup : b.conflicts.Nodup
  mem_iff : ∀ n s, (n, s) ∈ b.conflicts ↔ 2 ≤ (b.actions n s).length

theorem Noted.placeReduction (h : b.Noted) {rule : Nat} (hn : n < b.rows.length) :
    (b.placeReduction (n, s, rule)).Noted := by
  refine ⟨?_, fun k s' => ?_⟩
  · rw [conflicts_placeReduction_eq]
    split
    · exact h.nodup
    · exact nodup_extend h.nodup _
  · rw [conflicts_placeReduction_eq, actions_placeReduction hn]
    by_cases hcell : k = n ∧ s' = s
    -- The action comes behind those of its own cell, which is in conflict if there are any.
    · obtain ⟨rfl, rfl⟩ := hcell
      rw [if_pos (And.intro rfl rfl : k = k ∧ s' = s'), List.length_append, List.length_singleton]
      split
      · next hempty =>
        rw [h.mem_iff, List.isEmpty_iff.mp hempty]
        simp
      · next hfilled =>
        have hpos := List.length_pos_iff.mpr (mt List.isEmpty_iff.mpr hfilled)
        simp only [mem_extend, List.mem_singleton, or_true, true_iff]
        omega
    · rw [if_neg hcell, ← h.mem_iff]
      have hother : (k, s') ≠ (n, s) := fun heq => hcell (Prod.mk.inj heq)
      split
      · exact Iff.rfl
      · simp [mem_extend, hother]

/-- Reductions come to the end of their cells, in order. -/
theorem foldl_placeReduction (rs : List (Nat × Symbol × Nat))
    (hrs : ∀ r ∈ rs, r.1 < b.rows.length) (h : b.Noted) :
    (rs.foldl placeReduction b).rows.length = b.rows.length ∧ (rs.foldl placeReduction b).Noted ∧
      ∀ n s, (rs.foldl placeReduction b).actions n s =
        b.actions n s ++ (rs.filter fun r => r.1 = n ∧ r.2.1 = s).map fun r => .reduce r.2.2 := by
  induction rs generalizing b with
  | nil => exact ⟨rfl, h, fun n s => (List.append_nil _).symm⟩
  | cons r rs ih =>
    obtain ⟨k, s', rule⟩ := r
    have hk : k < b.rows.length := hrs (k, s', rule) (List.mem_cons_self ..)
    obtain ⟨hlength, hnoted, hactions⟩ := ih (b := b.placeReduction (k, s', rule))
      (fun r hr => by rw [length_placeReduction]; exact hrs r (List.mem_cons_of_mem _ hr))
      (h.placeReduction hk)
    refine ⟨hlength.trans length_placeReduction, hnoted, fun n s => ?_⟩
    rw [List.foldl_cons, hactions, actions_placeReduction hk, List.filter_cons]
    by_cases heq : k = n ∧ s' = s
    · obtain ⟨rfl, rfl⟩ := heq
      simp
    · have heq' : ¬(n = k ∧ s = s') := fun h => heq ⟨h.1.symm, h.2.symm⟩
      simp [heq, heq']

end Board

/-! ### Transitions and acceptance -/

/-- What a cell holds beside reductions: acceptance, or the action of a transition. -/
def moveActions (g : Grammar) (m : Automaton) (n : Nat) (s : Symbol) : List (Action Nat) :=
  if s = Symbol.endMark then if m.finalState = some n then [.accept] else []
  else
    match m.goto n s with
    | none => []
    | some k => [if s ∈ g.terminals then .shift k else .goto k]

theorem length_moveActions_le (n : Nat) (s : Symbol) : (moveActions g m n s).length ≤ 1 := by
  unfold moveActions
  split
  · split
    · exact Nat.le_refl 1
    · exact Nat.zero_le 1
  · split
    · exact Nat.zero_le 1
    · exact Nat.le_refl 1

variable {a : Augmented} {full : Bool}

/-- What holds of a board on which the transitions of `placed` were written: their cells are filled,
and all others are empty. -/
structure Placed (g : Grammar) (m : Automaton) (placed : List Transition) (b : Board) : Prop where
  length_rows : b.rows.length = m.states.length
  conflicts : b.conflicts = []
  filled : ∀ t ∈ placed, b.actions t.source t.symbol =
    [if t.symbol ∈ g.terminals then .shift t.target else .goto t.target]
  empty : ∀ n s, (∀ t ∈ placed, ¬(t.source = n ∧ t.symbol = s)) → b.actions n s = []

theorem placed_blank : Placed g m [] (Board.blank m.states.length) :=
  ⟨List.length_replicate, rfl, fun _ ht => absurd ht List.not_mem_nil,
    fun n s _ => Board.actions_blank _ n s⟩

/-- No transition takes the place of another. -/
theorem Placed.concat (h : m.Coherent g a full) {placed : List Transition} {b : Board}
    (hb : Placed g m placed b) (hplaced : placed ⊆ m.transitions) {t : Transition}
    (ht : t ∈ m.transitions) :
    ∃ b', Board.placeTransition g b t = .ok b' ∧ Placed g m (placed ++ [t]) b' := by
  obtain ⟨items, _, hitems, _⟩ := h.moves t ht
  have hlt : t.source < b.rows.length :=
    hb.length_rows ▸ (List.getElem?_eq_some_iff.mp hitems).1
  refine ⟨_, if_pos hlt, Board.length_put.trans hb.length_rows, hb.conflicts, fun t' ht' => ?_,
    fun n s hother => ?_⟩
  · rw [Board.actions_put hlt]
    split
    · next heq =>
      have ht' : t' ∈ m.transitions := by
        rcases List.mem_append.mp ht' with h' | h'
        · exact hplaced h'
        · exact List.mem_singleton.mp h' ▸ ht
      obtain rfl := h.single t' ht' t ht heq.1 heq.2
      rfl
    · next hne =>
      rcases List.mem_append.mp ht' with h' | h'
      · exact hb.filled t' h'
      · obtain rfl := List.mem_singleton.mp h'
        exact absurd ⟨rfl, rfl⟩ hne
  · rw [Board.actions_put hlt, if_neg]
    · exact hb.empty n s fun t' h' => hother t' (List.mem_append_left _ h')
    · rintro ⟨rfl, rfl⟩
      exact hother t (List.mem_append_right _ (List.mem_singleton_self t)) ⟨rfl, rfl⟩

/-- Once all transitions are placed, the cells hold what the automaton's moves say. -/
theorem Placed.actions_eq {b : Board} (hb : Placed g m m.transitions b) (n : Nat) (s : Symbol) :
    b.actions n s = match m.goto n s with
      | none => []
      | some k => [if s ∈ g.terminals then .shift k else .goto k] := by
  cases hgoto : m.goto n s with
  | none =>
    refine hb.empty n s ?_
    rintro t ht ⟨rfl, rfl⟩
    have hsome := Automaton.goto_isSome ht
    rw [hgoto] at hsome
    cases hsome
  | some k => exact hb.filled ⟨n, s, k⟩ (Automaton.mem_of_goto hgoto)

theorem placeTransitions_ok (h : m.Coherent g a full) :
    ∃ b, m.transitions.foldlM (Board.placeTransition g) (Board.blank m.states.length) = .ok b ∧
      Placed g m m.transitions b := by
  have hstep : ∀ t rest b, (∃ placed, m.transitions = placed ++ t :: rest ∧ Placed g m placed b) →
      ∃ b', Board.placeTransition g b t = .ok b' ∧
        ∃ placed, m.transitions = placed ++ rest ∧ Placed g m placed b' := by
    rintro t rest b ⟨placed, hall, hb⟩
    have ht : t ∈ m.transitions := hall ▸ List.mem_append_right _ (List.mem_cons_self ..)
    have hplaced : placed ⊆ m.transitions := hall ▸ List.subset_append_left ..
    obtain ⟨b', hok, hb'⟩ := hb.concat h hplaced ht
    exact ⟨b', hok, placed ++ [t], by rw [hall, List.append_assoc, List.singleton_append], hb'⟩
  obtain ⟨b, hok, placed, hall, hb⟩ := foldlM_total (I := fun rest b =>
    ∃ placed, m.transitions = placed ++ rest ∧ Placed g m placed b) hstep ⟨[], rfl, placed_blank⟩
  rw [List.append_nil] at hall
  exact ⟨b, hok, hall ▸ hb⟩

/-- Acceptance is written where nothing else is. -/
theorem Placed.actions_placeAccept (h : m.Coherent g a full)
    (hend : ∀ t ∈ m.transitions, t.symbol ≠ Symbol.endMark) {b : Board}
    (hb : Placed g m m.transitions b) (n : Nat) (s : Symbol) :
    (b.placeAccept m.finalState).actions n s = moveActions g m n s := by
  have hnoend : ∀ n, m.goto n Symbol.endMark = none := by
    intro n
    cases hgoto : m.goto n Symbol.endMark with
    | none => rfl
    | some k => exact absurd rfl (hend _ (Automaton.mem_of_goto hgoto))
  unfold moveActions
  cases hfinal : m.finalState with
  | none =>
    show b.actions n s = _
    rw [hb.actions_eq]
    by_cases hs : s = Symbol.endMark
    · subst hs
      simp [hnoend]
    · rw [if_neg hs]
  | some f =>
    show (b.put f Symbol.endMark .accept).actions n s = _
    obtain ⟨items, hitems, _⟩ := h.mem_finalState f hfinal
    have hlt : f < b.rows.length := hb.length_rows ▸ (List.getElem?_eq_some_iff.mp hitems).1
    rw [Board.actions_put hlt, hb.actions_eq]
    by_cases hs : s = Symbol.endMark
    · subst hs
      by_cases hf : n = f
      · simp [hf]
      · simp [hf, Ne.symm hf, hnoend]
    · simp [hs]

/-! ### Reductions -/

theorem reductionsBy_eq_ok {n : Nat} {i : Item} {found : List (Nat × Symbol × Nat)}
    (h : reductionsBy g n i = .ok found) :
    (¬(i.isComplete ∧ i.production ≠ 0) ∧ found = []) ∨
      ((i.isComplete ∧ i.production ≠ 0) ∧ ∃ rule set, g.ruleNumber? i.rule = some rule ∧
        g.follow.find? i.rule.name = some set ∧ found = set.map fun s => (n, s, rule)) := by
  unfold reductionsBy at h
  split at h
  · next hcomplete =>
    split at h
    · cases h
    · next rule hrule =>
      obtain ⟨set, hset, h⟩ := bind_eq_ok_iff.mp h
      exact .inr ⟨hcomplete, rule, set, hrule, SymbolSets.get_eq_ok_iff.mp hset,
        (Except.ok.inj h).symm⟩
  · next hcomplete => exact .inl ⟨hcomplete, (Except.ok.inj h).symm⟩

/-- Items that reduce before a symbol. -/
structure Reduces (g : Grammar) (i : Item) (s : Symbol) : Prop where
  isComplete : i.isComplete
  production_ne_zero : i.production ≠ 0
  has_follow : g.follow.Has i.rule.name s

/-- The reduction by an item before a symbol, if there is one. -/
def reductionOn (g : Grammar) (s : Symbol) (i : Item) : Option (Action Nat) :=
  if i.isComplete ∧ i.production ≠ 0 ∧ s ∈ (g.follow.find? i.rule.name).getD [] then
    (g.ruleNumber? i.rule).map .reduce
  else none

theorem reductionOn_eq_some_iff {i : Item} {s : Symbol} {action : Action Nat} :
    reductionOn g s i = some action ↔
      Reduces g i s ∧ ∃ rule, g.ruleNumber? i.rule = some rule ∧ action = .reduce rule := by
  have hreduces : Reduces g i s ↔
      i.isComplete ∧ i.production ≠ 0 ∧ s ∈ (g.follow.find? i.rule.name).getD [] := by
    rw [Assoc.mem_getD_find?_iff]
    exact ⟨fun ⟨hcomplete, hzero, hs⟩ => ⟨hcomplete, hzero, hs⟩,
      fun ⟨hcomplete, hzero, hs⟩ => ⟨hcomplete, hzero, hs⟩⟩
  unfold reductionOn
  rw [hreduces]
  split
  · next hyes => simp [hyes, eq_comm]
  · next hno => simp [hno]

/-- Items of productions that reduce have a reduction, as their rules have numbers. -/
theorem isSome_reductionOn_iff (hg : g.Consistent) (ha : Augmented.ofGrammar g = .ok a) {i : Item}
    (hi : a.Valid i) {s : Symbol} : (reductionOn g s i).isSome ↔ Reduces g i s := by
  constructor
  · intro h
    obtain ⟨action, haction⟩ := Option.isSome_iff_exists.mp h
    exact (reductionOn_eq_some_iff.mp haction).1
  · intro h
    obtain ⟨_, p, _, hp, hrule⟩ := hi.exists_production ha h.production_ne_zero
    obtain ⟨rule, hnumber⟩ := hg.exists_ruleNumber? (List.mem_of_getElem? hp)
    rw [hrule] at hnumber
    exact Option.isSome_iff_exists.mpr
      ⟨_, reductionOn_eq_some_iff.mpr ⟨h, rule, hnumber, rfl⟩⟩

/-- The items of the state of a number, none if there is no such state. -/
def itemsAt (m : Automaton) (n : Nat) : List Item := m.states[n]?.getD []

theorem mem_itemsAt_iff {n : Nat} {i : Item} :
    i ∈ itemsAt m n ↔ ∃ items, m.states[n]? = some items ∧ i ∈ items := by
  unfold itemsAt
  cases m.states[n]? <;> simp

/-- All items, each with the number of its state. -/
def numberedItems (m : Automaton) : List (Nat × Item) :=
  m.states.zipIdx.flatMap fun (items, n) => items.map fun i => (n, i)

theorem mem_numberedItems_iff {n : Nat} {i : Item} :
    (n, i) ∈ numberedItems m ↔ ∃ items, m.states[n]? = some items ∧ i ∈ items := by
  unfold numberedItems
  simp only [List.mem_flatMap, List.mem_map, Prod.exists, List.mem_zipIdx_iff_getElem?]
  constructor
  · rintro ⟨items, k, hk, j, hj, heq⟩
    obtain ⟨rfl, rfl⟩ := Prod.mk.inj heq
    exact ⟨items, hk, hj⟩
  · rintro ⟨items, hn, hi⟩
    exact ⟨items, n, hn, i, hi, rfl⟩

/-- The reductions of an automaton come from its items one by one. -/
theorem reductions_eq_flatMap {rs : List (Nat × Symbol × Nat)} (h : reductions g m = .ok rs) :
    ∃ F : Nat × Item → List (Nat × Symbol × Nat), rs = (numberedItems m).flatMap F ∧
      ∀ n i, (n, i) ∈ numberedItems m → reductionsBy g n i = .ok (F (n, i)) := by
  obtain ⟨found, hfound, h⟩ := bind_eq_ok_iff.mp h
  obtain rfl := Except.ok.inj h
  obtain ⟨F, rfl, hF⟩ := exists_eq_map_of_mapM hfound
  exact ⟨F, List.flatMap_def.symm, fun n i hi => hF (n, i) hi⟩

theorem source_of_mem_reductions {rs : List (Nat × Symbol × Nat)} (h : reductions g m = .ok rs) :
    ∀ r ∈ rs, r.1 < m.states.length := by
  obtain ⟨F, rfl, hF⟩ := reductions_eq_flatMap h
  intro r hr
  obtain ⟨⟨n, i⟩, hi, hr⟩ := List.mem_flatMap.mp hr
  rcases reductionsBy_eq_ok (hF n i hi) with ⟨_, hnil⟩ | ⟨_, rule, set, _, _, hmap⟩
  · rw [hnil] at hr
    cases hr
  · rw [hmap] at hr
    obtain ⟨_, _, rfl⟩ := List.mem_map.mp hr
    obtain ⟨items, hitems, _⟩ := mem_numberedItems_iff.mp hi
    exact (List.getElem?_eq_some_iff.mp hitems).1

/-- What one item puts into one cell: its reduction, once, if it is in the state and the symbol can
follow. -/
theorem reductionsBy_at (hfollow : ∀ n l, g.follow.find? n = some l → l.Nodup) {k : Nat} {i : Item}
    {found : List (Nat × Symbol × Nat)} (h : reductionsBy g k i = .ok found) (n : Nat)
    (s : Symbol) :
    ((found.filter fun r => r.1 = n ∧ r.2.1 = s).map fun r => Action.reduce r.2.2) =
      if k = n then (reductionOn g s i).toList else [] := by
  rcases reductionsBy_eq_ok h with ⟨hno, rfl⟩ | ⟨⟨hcomplete, hzero⟩, rule, set, hrule, hset, rfl⟩
  · have hnone : reductionOn g s i = none := if_neg fun hyes => hno ⟨hyes.1, hyes.2.1⟩
    rw [hnone]
    simp
  · by_cases hk : k = n
    · have hsame : ((fun r : Nat × Symbol × Nat => decide (r.1 = n ∧ r.2.1 = s)) ∘
          fun s => (k, s, rule)) = fun x => decide (x = s) := by
        funext x
        simp [hk]
      rw [List.filter_map, hsame, List.filter_eq, (hfollow _ _ hset).count, if_pos hk, reductionOn,
        hset, hrule]
      by_cases hs : s ∈ set <;> simp [hcomplete, hzero, hs]
    · simp [hk, List.filter_map, Function.comp_def]

/-- What is found at one place of a list. -/
theorem flatMap_zipIdx_eq {α β : Type} (f : α → List β) (l : List α) (n k : Nat) :
    ((l.zipIdx k).flatMap fun p => if p.2 = n then f p.1 else []) =
      if k ≤ n then (l[n - k]?.map f).getD [] else [] := by
  induction l generalizing k with
  | nil => simp
  | cons x l ih =>
    rw [List.zipIdx_cons, List.flatMap_cons, ih]
    by_cases heq : k = n
    · simp [heq]
    · by_cases hlt : k ≤ n
      · rw [if_neg heq, if_pos (by omega), if_pos hlt, show n - k = n - (k + 1) + 1 by omega]
        rfl
      · rw [if_neg heq, if_neg (by omega), if_neg hlt]
        rfl

/-- The reductions in a cell, in the order of the state's items. -/
theorem reductions_at (hfollow : ∀ n l, g.follow.find? n = some l → l.Nodup)
    {rs : List (Nat × Symbol × Nat)} (h : reductions g m = .ok rs) (n : Nat) (s : Symbol) :
    ((rs.filter fun r => r.1 = n ∧ r.2.1 = s).map fun r => Action.reduce r.2.2) =
      (itemsAt m n).filterMap (reductionOn g s) := by
  obtain ⟨F, rfl, hF⟩ := reductions_eq_flatMap h
  calc (((numberedItems m).flatMap F).filter fun r => r.1 = n ∧ r.2.1 = s).map
        (fun r => Action.reduce r.2.2)
      = (numberedItems m).flatMap fun p =>
          if p.1 = n then (reductionOn g s p.2).toList else [] := by
        rw [List.filter_flatMap, List.map_flatMap]
        exact List.flatMap_congr fun p hp => reductionsBy_at hfollow (hF p.1 p.2 hp) n s
    _ = m.states.zipIdx.flatMap fun p =>
          if p.2 = n then p.1.flatMap fun i => (reductionOn g s i).toList else [] := by
        rw [numberedItems, List.flatMap_assoc]
        refine List.flatMap_congr fun p _ => ?_
        rw [List.flatMap_map]
        split
        · rfl
        · simp
    _ = (itemsAt m n).filterMap (reductionOn g s) := by
        rw [flatMap_zipIdx_eq, if_pos (Nat.zero_le n), itemsAt, List.filterMap_eq_flatMap_toList]
        cases m.states[n]? <;> rfl

/-! ### Success -/

/-- An item of a state gives its reductions: its rule has a number, and its name a set. -/
theorem reductionsBy_total (hg : g.Consistent) (ha : Augmented.ofGrammar g = .ok a)
    (hfollow : ∀ n ∈ g.nonterminals, n ∈ g.follow) {i : Item} (hi : a.Valid i) (n : Nat) :
    ∃ found, reductionsBy g n i = .ok found := by
  unfold reductionsBy
  split
  · next hcomplete =>
    obtain ⟨_, p, _, hp, hrule⟩ := hi.exists_production ha hcomplete.2
    have hp := List.mem_of_getElem? hp
    obtain ⟨rule, hnumber⟩ := hg.exists_ruleNumber? hp
    obtain ⟨set, hset⟩ := Assoc.exists_find? (hfollow p.name (hg.name_mem_nonterminals hp))
    rw [← hrule, hnumber]
    exact ⟨_, bind_eq_ok_iff.mpr ⟨set, SymbolSets.get_eq_ok_iff.mpr hset, rfl⟩⟩
  · exact ⟨[], rfl⟩

/-! ### All cells -/

/-- The cells of an automaton's table. -/
theorem Board.build_ok (h : m.Coherent g a full)
    (hend : ∀ t ∈ m.transitions, t.symbol ≠ Symbol.endMark)
    (hfollow : ∀ n l, g.follow.find? n = some l → l.Nodup) {b : Board}
    (hb : Board.build g m = .ok b) :
    b.rows.length = m.states.length ∧ b.Noted ∧ ∀ n s, b.actions n s =
      moveActions g m n s ++ (itemsAt m n).filterMap (reductionOn g s) := by
  obtain ⟨moves, hmoves, hb⟩ := bind_eq_ok_iff.mp hb
  obtain ⟨rs, hrs, hb⟩ := bind_eq_ok_iff.mp hb
  obtain rfl := Except.ok.inj hb
  obtain ⟨b₀, hok, hplaced⟩ := placeTransitions_ok h
  obtain rfl := Except.ok.inj (hmoves.symm.trans hok)
  have haccept := hplaced.actions_placeAccept h hend
  have hrows : (moves.placeAccept m.finalState).rows.length = m.states.length := by
    unfold placeAccept
    split
    · exact hplaced.length_rows
    · exact length_put.trans hplaced.length_rows
  have hnone : (moves.placeAccept m.finalState).conflicts = [] := by
    unfold placeAccept
    split <;> exact hplaced.conflicts
  have hnoted : (moves.placeAccept m.finalState).Noted := by
    refine ⟨hnone ▸ List.nodup_nil, fun n s => ?_⟩
    have hone := length_moveActions_le (g := g) (m := m) n s
    rw [hnone, haccept]
    simp only [List.not_mem_nil, false_iff]
    omega
  have hsources : ∀ r ∈ rs, r.1 < (moves.placeAccept m.finalState).rows.length := fun r hr =>
    hrows ▸ source_of_mem_reductions hrs r hr
  obtain ⟨hrows', hnoted', hcells⟩ := foldl_placeReduction rs hsources hnoted
  refine ⟨hrows'.trans hrows, hnoted', fun n s => ?_⟩
  rw [hcells, haccept, reductions_at hfollow hrs]

/-- The rows of an automaton's table are written without fail. -/
theorem Board.build_total (hg : g.Consistent) (ha : Augmented.ofGrammar g = .ok a)
    (h : m.Built g a full) (hfollow : ∀ n ∈ g.nonterminals, n ∈ g.follow) :
    ∃ b, Board.build g m = .ok b := by
  obtain ⟨moves, hmoves, _⟩ := placeTransitions_ok h.toCoherent
  obtain ⟨found, hfound⟩ : ∃ found,
      (numberedItems m).mapM (fun p => reductionsBy g p.1 p.2) = .ok found := by
    refine exists_mapM fun p hp => ?_
    obtain ⟨items, hitems, hi⟩ := mem_numberedItems_iff.mp hp
    exact reductionsBy_total hg ha hfollow (h.valid h.reached hitems hi) p.1
  exact ⟨_, bind_eq_ok_iff.mpr ⟨moves, hmoves,
    bind_eq_ok_iff.mpr ⟨found.flatten, bind_eq_ok_iff.mpr ⟨found, hfound, rfl⟩, rfl⟩⟩⟩

end ShiftReduce
