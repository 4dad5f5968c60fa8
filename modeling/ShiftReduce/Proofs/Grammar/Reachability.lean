/-
Symbols that derivations from the start symbol meet.

The search goes from names to the symbols on their right sides. Each of these stands in a row that
is derived from the start symbol, as the name that it was found from does; and the search is long
enough to end with a list that holds all symbols of such rows.

* `Grammar.Reaches` — a symbol stands in a row that is derived from another;
* `Grammar.Reaches.of_mem_rhs` — the symbols on a name's right sides are reached with the name;
* `Grammar.explore_induction` — what right sides inherit holds of all that is found;
* `Grammar.Exploring`, `Grammar.explore_closed` — the search ends with a closed list;
* `Grammar.mem_reachable_iff` — so what is found is what is reached;
* `Grammar.unreachable_eq_nil_iff` — no non-terminal is reported just if all are reached;
* `Grammar.unreachable_withSets` — FIRST and FOLLOW sets have no part in it.
-/
import Mathlib.Data.List.Nodup
import Mathlib.Data.List.Perm.Subperm
import ShiftReduce.Proofs.Grammar.Representation

namespace ShiftReduce.Grammar

/-- A symbol stands in a row that is derived from another. -/
def Reaches (g : Grammar) (s x : Symbol) : Prop :=
  ∃ left right, Derives g.rules [s] (left ++ x :: right)

variable {g : Grammar} {s x : Symbol}

theorem Reaches.refl (g : Grammar) (s : Symbol) : g.Reaches s s := ⟨[], [], .refl [s]⟩

/-- The symbols on the right sides of a name are reached with it. -/
theorem Reaches.of_mem_rhs {p : Production} (h : g.Reaches s p.name) (hp : p ∈ g.productions)
    (hx : x ∈ p.rhs) : g.Reaches s x := by
  obtain ⟨left, right, hd⟩ := h
  obtain ⟨l, r, hrhs⟩ := List.append_of_mem hx
  have hstep : Produces g.rules (left ++ p.name :: right) (left ++ (p.rhs ++ right)) :=
    .replace left right (List.mem_map_of_mem hp)
  refine ⟨left ++ l, r ++ right, ?_⟩
  have hall := hd.tail hstep
  rw [hrhs] at hall
  simpa using hall

/-- What the symbols on right sides inherit from the names holds of all that is found. -/
theorem explore_induction {P : Symbol → Prop} (inherit : ∀ n, P n → ∀ x ∈ g.successors n, P x)
    {steps : Nat} {pending seen : List Symbol} (hpending : ∀ n ∈ pending, P n)
    (hseen : ∀ n ∈ seen, P n) : ∀ n ∈ g.explore steps pending seen, P n := by
  induction steps generalizing pending seen with
  | zero => exact hseen
  | succ steps ih =>
    cases pending with
    | nil => exact hseen
    | cons s pending =>
      have hs := hpending s (List.mem_cons_self ..)
      have hfresh : ∀ x ∈ extend [] ((g.successors s).filter (· ∉ seen)), P x := by
        intro x hx
        rcases mem_extend.mp hx with hx | hx
        · cases hx
        · exact inherit s hs x (List.mem_filter.mp hx).1
      rw [explore]
      refine ih (fun n hn => ?_) fun n hn => ?_
      · rcases List.mem_append.mp hn with hn | hn
        · exact hfresh n hn
        · exact hpending n (List.mem_cons_of_mem s hn)
      · rcases List.mem_append.mp hn with hn | hn
        · exact hseen n hn
        · exact hfresh n hn

/-! ### Completeness -/

/-- The start symbol and the symbols on right sides. -/
def explorable (g : Grammar) (s : Symbol) : List Symbol :=
  s :: g.productions.flatMap fun p => p.rhs

/-- What holds of the symbols to be searched from and of those that are seen, at every moment. -/
structure Exploring (g : Grammar) (s : Symbol) (pending seen : List Symbol) : Prop where
  nodup : seen.Nodup
  subset : seen ⊆ g.explorable s
  closed : ∀ n ∈ seen, n ∈ pending ∨ g.successors n ⊆ seen

theorem successors_subset (hg : g.Consistent) (s n : Symbol) : g.successors n ⊆ g.explorable s := by
  intro x hx
  obtain ⟨p, hp, hrhs⟩ := List.mem_flatMap.mp hx
  rw [hg.productionsOf_eq] at hp
  exact List.mem_cons_of_mem s (List.mem_flatMap.mpr ⟨p, (List.mem_filter.mp hp).1, hrhs⟩)

theorem Exploring.step (hg : g.Consistent) {n : Symbol} {pending seen fresh : List Symbol}
    (h : Exploring g s (n :: pending) seen)
    (hfresh : fresh = extend [] ((g.successors n).filter (· ∉ seen))) :
    Exploring g s (fresh ++ pending) (seen ++ fresh) := by
  have hmem : ∀ x, x ∈ fresh ↔ x ∈ g.successors n ∧ x ∉ seen := by
    intro x
    rw [hfresh, mem_extend, List.mem_filter]
    simp
  refine ⟨?_, ?_, fun x hx => ?_⟩
  · refine List.nodup_append.mpr ⟨h.nodup, hfresh ▸ nodup_extend List.nodup_nil _, ?_⟩
    rintro x hx y hy rfl
    exact ((hmem x).mp hy).2 hx
  · exact List.append_subset.mpr
      ⟨h.subset, fun x hx => successors_subset hg s n ((hmem x).mp hx).1⟩
  · have hall : g.successors n ⊆ seen ++ fresh := fun y hy => by
      rw [List.mem_append, hmem]
      exact (em (y ∈ seen)).imp_right fun hnew => ⟨hy, hnew⟩
    rcases List.mem_append.mp hx with hx | hx
    · rcases h.closed x hx with hpending | hclosed
      · rcases List.mem_cons.mp hpending with rfl | hpending
        · exact .inr hall
        · exact .inl (List.mem_append_right fresh hpending)
      · exact .inr fun y hy => List.mem_append_left fresh (hclosed hy)
    · exact .inl (List.mem_append_left pending hx)

theorem Exploring.done {seen : List Symbol} (h : Exploring g s [] seen) :
    ∀ n ∈ seen, g.successors n ⊆ seen := fun n hn =>
  (h.closed n hn).resolve_left List.not_mem_nil

/-- A search ends with all that right sides lead to. There are steps enough if the symbols that
can be found are no more than those that were searched from and the steps. -/
theorem explore_closed (hg : g.Consistent) {steps : Nat} {pending seen : List Symbol}
    (h : Exploring g s pending seen)
    (hsteps : (g.explorable s).length + pending.length ≤ seen.length + steps) :
    seen ⊆ g.explore steps pending seen ∧
      ∀ n ∈ g.explore steps pending seen, g.successors n ⊆ g.explore steps pending seen := by
  induction steps generalizing pending seen with
  | zero =>
    -- All that can be found is found.
    have hlength := (h.nodup.subperm h.subset).length_le
    obtain rfl : pending = [] := List.eq_nil_of_length_eq_zero (by omega)
    exact ⟨List.Subset.refl seen, h.done⟩
  | succ steps ih =>
    cases pending with
    | nil => exact ⟨List.Subset.refl seen, h.done⟩
    | cons n pending =>
      have hstep := h.step hg rfl
      have hsteps' : (g.explorable s).length +
          (extend [] ((g.successors n).filter (· ∉ seen)) ++ pending).length ≤
          (seen ++ extend [] ((g.successors n).filter (· ∉ seen))).length + steps := by
        simp only [List.length_append, List.length_cons] at hsteps ⊢
        omega
      obtain ⟨hbegin, hclosed⟩ := ih hstep hsteps'
      exact ⟨List.Subset.trans (List.subset_append_left seen _) hbegin, hclosed⟩

/-- The symbols that are found are those of the rows that are derived from the start symbol. -/
theorem mem_reachable_iff (hg : g.Consistent) (hs : g.start = some s) :
    x ∈ g.reachable ↔ g.Reaches s x := by
  unfold reachable
  rw [hs]
  have hsuccessors : ∀ {n y}, y ∈ g.successors n ↔ ∃ p ∈ g.productions, p.name = n ∧ y ∈ p.rhs := by
    intro n y
    unfold successors
    rw [hg.productionsOf_eq]
    simp [and_assoc]
  constructor
  · have hstart : ∀ n ∈ [s], g.Reaches s n := fun n hn => List.mem_singleton.mp hn ▸ .refl g s
    refine explore_induction (fun n hn y hy => ?_) hstart hstart x
    obtain ⟨p, hp, rfl, hrhs⟩ := hsuccessors.mp hy
    exact hn.of_mem_rhs hp hrhs
  · rintro ⟨left, right, hd⟩
    have hexploring : Exploring g s [s] [s] :=
      ⟨List.nodup_singleton s, List.cons_subset_cons s (List.nil_subset _), fun n hn => .inl hn⟩
    have hsteps : (g.explorable s).length + [s].length ≤ [s].length + g.exploreSteps := by
      simp [explorable, exploreSteps, Nat.add_comm]
    obtain ⟨hbegin, hclosed⟩ := explore_closed hg hexploring hsteps
    have hinherit : ∀ r ∈ g.rules, r.name ∈ g.explore g.exploreSteps [s] [s] →
        ∀ y ∈ r.rhs, y ∈ g.explore g.exploreSteps [s] [s] := by
      intro r hr hname y hy
      obtain ⟨p, hp, rfl⟩ := List.mem_map.mp hr
      exact hclosed p.name hname (hsuccessors.mpr ⟨p, hp, rfl, hy⟩)
    exact forall_of_derives hinherit hd hbegin x (by simp)

/-- If no non-terminal is reported, all are reached from the start symbol, and the other way
round. -/
theorem unreachable_eq_nil_iff (hg : g.Consistent) (hs : g.start = some s) :
    g.unreachable = [] ↔ ∀ n ∈ g.nonterminals, g.Reaches s n := by
  unfold unreachable
  rw [hs]
  simp only [List.filter_eq_nil_iff, decide_not, Bool.not_eq_true', decide_eq_false_iff_not,
    not_not, mem_reachable_iff hg hs, Assoc.mem_def]

/-! ### Computed sets -/

theorem explore_withSets (g : Grammar) (first follow : SymbolSets) (steps : Nat)
    (pending seen : List Symbol) :
    explore { g with first := first, follow := follow } steps pending seen =
      g.explore steps pending seen := by
  induction steps generalizing pending seen with
  | zero => rfl
  | succ steps ih =>
    cases pending with
    | nil => rfl
    | cons s pending => exact ih _ _

/-- The sets that are computed for a grammar have no part in what is reached. -/
theorem unreachable_withSets (g : Grammar) (first follow : SymbolSets) :
    unreachable { g with first := first, follow := follow } = g.unreachable := by
  unfold unreachable reachable
  simp only [explore_withSets]
  rfl

end ShiftReduce.Grammar
