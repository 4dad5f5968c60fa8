/-
Rules that are out of reach.

No row that is derived from the start symbol holds the name of such a rule, so that without these
rules the start symbol derives the same rows. The rules that are left are in the same order, and the
FOLLOW sets of their names have at most what they had.

* `Grammar.Reached` — a symbol is met from the start symbol;
* `Grammar.pruned` — what is left of a grammar without the rules that are out of reach;
* `Grammar.Pruned` — the rules of reached names are kept with new numbers, and no others are there;
* `Grammar.exists_pruned` — what is left of a grammar is of this kind;
* `Grammar.Pruned.derives_iff`, `Grammar.Pruned.isSentence_iff` — derivations and sentences;
* `Grammar.Pruned.has_follow` — FOLLOW sets.
-/
import ShiftReduce.Proofs.Grammar.Reordering

namespace ShiftReduce.Grammar

/-- A symbol stands in a row that is derived from the start symbol. -/
def Reached (g : Grammar) (x : Symbol) : Prop := ∃ s, g.start = some s ∧ g.Reaches s x

/-- What is left of a grammar without the rules whose names are reported as unreachable, the others
in their order. Nothing is computed for it yet. -/
def pruned (g : Grammar) : Grammar := ofRules (g.rules.filter fun r => r.name ∉ g.unreachable)

variable {g : Grammar} {s : Symbol}

theorem rules_pruned (g : Grammar) :
    g.pruned.rules = g.rules.filter fun r => r.name ∉ g.unreachable := rules_ofRules _

theorem pruned_withSets (g : Grammar) (first follow : SymbolSets) :
    pruned { g with first := first, follow := follow } = g.pruned := by
  rw [pruned, unreachable_withSets]
  rfl

/-! ### Names that are reached -/

theorem Reached.of_mem_rhs {r : Rule} (hr : r ∈ g.rules) (hname : g.Reached r.name) :
    ∀ x ∈ r.rhs, g.Reached x := by
  obtain ⟨p, hp, rfl⟩ := List.mem_map.mp hr
  obtain ⟨s, hs, hreaches⟩ := hname
  exact fun x hx => ⟨s, hs, hreaches.of_mem_rhs hp hx⟩

/-- The name of a rule is reported just if it is not reached. -/
theorem not_mem_unreachable_iff (hg : g.Consistent) {r : Rule} (hr : r ∈ g.rules) :
    r.name ∉ g.unreachable ↔ g.Reached r.name := by
  obtain ⟨p, hp, rfl⟩ := List.mem_map.mp hr
  obtain ⟨s, hs⟩ := hg.exists_start hp
  have hname : p.name ∈ g.nonterminals.keys := hg.name_mem_nonterminals hp
  unfold unreachable
  rw [hs]
  dsimp only
  rw [List.mem_filter, decide_eq_true_eq, mem_reachable_iff hg hs]
  constructor
  · exact fun h => ⟨s, hs, of_not_not fun hnot => h ⟨hname, hnot⟩⟩
  · rintro ⟨s', hs', hreaches⟩ ⟨_, hnot⟩
    obtain rfl := Option.some.inj (hs.symm.trans hs')
    exact hnot hreaches

/-! ### What is left -/

theorem consistent_pruned (hg : g.Consistent) : g.pruned.Consistent := by
  refine consistent_ofRules fun r hr => ?_
  obtain ⟨p, hp, rfl⟩ := List.mem_map.mp (List.mem_filter.mp hr).1
  exact hg.name_isNonterminal p hp

theorem readable_pruned (hreadable : g.Readable) : g.pruned.Readable := by
  intro p hp
  have hrule : p.toRule ∈ g.pruned.rules := List.mem_map_of_mem hp
  rw [rules_pruned] at hrule
  obtain ⟨q, hq, heq⟩ := List.mem_map.mp (List.mem_filter.mp hrule).1
  exact heq ▸ hreadable q hq

theorem unsolved_pruned (hg : g.Consistent) : g.pruned.first = ∅ ∧ g.pruned.follow = ∅ := by
  refine unsolved_of_addRules (addRules_eq_ofRules fun r hr => ?_)
  obtain ⟨p, hp, rfl⟩ := List.mem_map.mp (List.mem_filter.mp hr).1
  exact hg.name_isNonterminal p hp

theorem Consistent.start_eq_rules (hg : g.Consistent) :
    g.start = g.rules.head?.map Rule.name := by
  rw [hg.start_eq, rules, List.head?_map, Option.map_map]
  rfl

/-- The first rule is that of the start symbol, and stays. -/
theorem start_pruned (hg : g.Consistent) : g.pruned.start = g.start := by
  rw [(consistent_pruned hg).start_eq_rules, rules_pruned]
  have hstart := hg.start_eq_rules
  cases hrules : g.rules with
  | nil =>
    rw [hstart, hrules]
    rfl
  | cons r rest =>
    rw [hrules] at hstart
    have hr : r ∈ g.rules := hrules ▸ List.mem_cons_self ..
    have hkept : r.name ∉ g.unreachable :=
      (not_mem_unreachable_iff hg hr).mpr ⟨r.name, hstart, .refl g r.name⟩
    rw [List.filter_cons_of_pos (by simpa using hkept), hstart]
    rfl

theorem productions_pruned_ne_nil (hg : g.Consistent) (hne : g.productions ≠ []) :
    g.pruned.productions ≠ [] := by
  intro hnil
  obtain ⟨s, hs⟩ := hg.exists_start_of_ne_nil hne
  have hnone := (consistent_pruned hg).start_eq
  rw [hnil, start_pruned hg, hs] at hnone
  cases hnone

/-- The rules of the names that are reached are there with new numbers, and no others are. -/
structure Pruned (σ : Equiv.Perm Nat) (g g' : Grammar) : Prop where
  keeps : Keeps σ g.Reached g g'
  back : Keeps σ.symm (fun _ => True) g' g

theorem exists_pruned (hg : g.Consistent) :
    ∃ σ, ∀ first follow, Pruned σ g { g.pruned with first := first, follow := follow } := by
  -- The numbers are those of the list with the dropped rules behind.
  obtain ⟨σ, hσ⟩ := exists_renumbering
    (List.filter_append_perm (fun r => r.name ∉ g.unreachable) g.rules).symm
  rw [← rules_pruned] at hσ
  have hdropped : ∀ r ∈ g.rules.filter fun r => !decide (r.name ∉ g.unreachable),
      ¬g.Reached r.name := by
    intro r hr hreached
    obtain ⟨hr, hnot⟩ := List.mem_filter.mp hr
    rw [decide_eq_true ((not_mem_unreachable_iff hg hr).mpr hreached)] at hnot
    cases hnot
  refine ⟨σ, fun first follow => ⟨?_, ?_⟩⟩
  · refine ⟨start_pruned hg, fun s hs => ⟨s, hs, .refl g s⟩, fun r hr => .of_mem_rhs hr, ?_⟩
    intro n r hn hname
    rw [← hσ.getElem?_eq, List.getElem?_append] at hn
    split at hn
    · exact hn
    · exact absurd hname (hdropped r (List.mem_of_getElem? hn))
  · refine ⟨(start_pruned hg).symm, fun _ _ => trivial, fun _ _ _ _ _ => trivial, ?_⟩
    intro n r hn _
    have hlt : n < g.pruned.rules.length := (List.getElem?_eq_some_iff.mp hn).1
    rw [← hσ.getElem?_eq, σ.apply_symm_apply, List.getElem?_append_left hlt]
    exact hn

namespace Pruned

variable {σ : Equiv.Perm Nat} {g' : Grammar} {n x : Symbol} {row w : List Symbol}

theorem contained (h : Pruned σ g g') : Contained g' g := h.back.contained fun _ => trivial

/-- The start symbol derives the same rows. -/
theorem derives_iff (h : Pruned σ g g') (hs : g.start = some s) :
    Derives g'.rules [s] row ↔ Derives g.rules [s] row :=
  ⟨fun hd => hd.mono h.contained.rules,
    fun hd => h.keeps.derives (List.forall_mem_singleton.mpr (h.keeps.start s hs)) hd⟩

theorem isSentence_iff (h : Pruned σ g g') (hg : g.Consistent) (hg' : g'.Consistent) :
    g'.IsSentence w ↔ g.IsSentence w := by
  constructor
  · rintro ⟨hw, s, hs, hd⟩
    have hs' : g.start = some s := h.contained.start_eq.trans hs
    exact ⟨fun t ht => h.contained.mem_terminals hg' hg (hw t ht), s, hs',
      (h.derives_iff hs').mp hd⟩
  · rintro ⟨hw, s, hs, hd⟩
    have hs' : g'.start = some s := h.keeps.start_eq.trans hs
    have hd' := (h.derives_iff hs).mpr hd
    have hstart : g'.Occurs s := (hg'.mem_nonterminals_iff.mp (hg'.start_mem_nonterminals hs')).2
    have hoccurs := occurs_of_derives hd' (List.forall_mem_singleton.mpr hstart)
    refine ⟨fun t ht => ?_, s, hs', hd'⟩
    exact hg'.mem_terminals_iff.mpr ⟨(hg.mem_terminals_iff.mp (hw t ht)).1, hoccurs t ht⟩

/-- Nothing follows a name that did not before. -/
theorem has_follow (h : Pruned σ g g') (hg : g.Settled) (hg' : g'.Settled)
    (hx : g'.follow.Has n x) : g.follow.Has n x :=
  h.contained.has_follow hg'.sound hg.sound hg.first hg.follow hx

end Pruned

end ShiftReduce.Grammar
