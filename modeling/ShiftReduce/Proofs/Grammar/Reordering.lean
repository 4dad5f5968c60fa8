/-
Grammars with the same rules in another order.

With more rules there is more that is derived, and there is more in the FIRST and FOLLOW sets. The
order of the rules decides which numbers they have and nothing else: what is derived is the same,
and so are the sets, as the rules of each grammar are among those of the other.

* `Renumbering` — new places for the members of a list, first places to first places;
* `exists_renumbering` — permuted lists have one;
* `Grammar.Contained` — rules that are among those of another grammar with the same start symbol;
* `Grammar.Contained.begins` — what rows begin with;
* `Grammar.Settled`, `Grammar.Sound` — computed sets, and sets that may not be finished;
* `Grammar.Contained.has_first`, `Grammar.Contained.has_follow` — what they hold;
* `Grammar.Keeps`, `Grammar.Keeps.derives` — rules of certain names are there with new numbers, so
  that these names derive what they did;
* `Grammar.Reordered` — the same rules with new numbers, and the same start symbol;
* `Grammar.Reordered.ruleNumber?_eq` — the number of a rule;
* `Grammar.Reordered.first_same`, `Grammar.Reordered.follow_same` — the sets are the same.
-/
import Mathlib.Logic.Equiv.Basic
import ShiftReduce.Proofs.Grammar.FollowSets
import ShiftReduce.Proofs.Grammar.Reading

namespace ShiftReduce

/-! ### Places in a list -/

/-- New places for the members of a list, as they are in another; the first place of a member is
taken to its first place. -/
structure Renumbering {α : Type} [DecidableEq α] (σ : Equiv.Perm Nat) (l l' : List α) : Prop where
  getElem?_eq : ∀ n, l'[σ n]? = l[n]?
  idxOf?_eq : ∀ x, l'.idxOf? x = (l.idxOf? x).map σ

/-- New places behind a first one, which stays. -/
def behindFirst (σ : Equiv.Perm Nat) : Equiv.Perm Nat where
  toFun
    | 0 => 0
    | n + 1 => σ n + 1
  invFun
    | 0 => 0
    | n + 1 => σ.symm n + 1
  left_inv n := by
    cases n with
    | zero => rfl
    | succ n => exact congrArg (· + 1) (σ.symm_apply_apply n)
  right_inv n := by
    cases n with
    | zero => rfl
    | succ n => exact congrArg (· + 1) (σ.apply_symm_apply n)

theorem behindFirst_symm (σ : Equiv.Perm Nat) : (behindFirst σ).symm = behindFirst σ.symm := by
  ext n
  cases n <;> rfl

namespace Renumbering

variable {α : Type} [DecidableEq α] {σ τ : Equiv.Perm Nat} {l l' l'' : List α}

theorem refl (l : List α) : Renumbering (Equiv.refl Nat) l l :=
  ⟨fun _ => rfl, fun x => by rw [Equiv.coe_refl, Option.map_id, id]⟩

theorem symm (h : Renumbering σ l l') : Renumbering σ.symm l' l where
  getElem?_eq n := by rw [← h.getElem?_eq, σ.apply_symm_apply]
  idxOf?_eq x := by
    rw [h.idxOf?_eq, Option.map_map]
    simp

theorem trans (h : Renumbering σ l l') (h' : Renumbering τ l' l'') :
    Renumbering (σ.trans τ) l l'' where
  getElem?_eq n := (h'.getElem?_eq (σ n)).trans (h.getElem?_eq n)
  idxOf?_eq x := by
    rw [h'.idxOf?_eq, h.idxOf?_eq, Option.map_map]
    rfl

theorem cons (h : Renumbering σ l l') (x : α) : Renumbering (behindFirst σ) (x :: l) (x :: l') where
  getElem?_eq n := by
    cases n with
    | zero => rfl
    | succ n => exact h.getElem?_eq n
  idxOf?_eq y := by
    rw [List.idxOf?_cons, List.idxOf?_cons]
    split
    · rfl
    · rw [h.idxOf?_eq, Option.map_map, Option.map_map]
      rfl

/-- Different neighbours change places; the same ones need not. -/
theorem swap {x y : α} (hne : x ≠ y) (l : List α) :
    Renumbering (Equiv.swap 0 1) (y :: x :: l) (x :: y :: l) where
  getElem?_eq n := by
    match n with
    | 0 => rfl
    | 1 => rfl
    | n + 2 => rw [Equiv.swap_apply_of_ne_of_ne (by omega) (by omega)]; rfl
  idxOf?_eq z := by
    simp only [List.idxOf?_cons]
    by_cases hx : x = z
    · subst hx
      simp [hne.symm]
    · by_cases hy : y = z
      · simp [hx, hy]
      · cases l.idxOf? z with
        | none => simp [hx, hy]
        | some n =>
          simp [hx, hy, Equiv.swap_apply_of_ne_of_ne (show n + 1 + 1 ≠ 0 by omega)]

theorem mem (h : Renumbering σ l l') {x : α} (hx : x ∈ l) : x ∈ l' := by
  obtain ⟨n, hn⟩ := List.mem_iff_getElem?.mp hx
  exact List.mem_of_getElem? ((h.getElem?_eq n).trans hn)

theorem mem_iff (h : Renumbering σ l l') {x : α} : x ∈ l' ↔ x ∈ l := ⟨h.symm.mem, h.mem⟩

end Renumbering

/-- Permuted lists have a renumbering, by induction on the permutation. -/
theorem exists_renumbering {α : Type} [DecidableEq α] {l l' : List α} (h : l.Perm l') :
    ∃ σ, Renumbering σ l l' := by
  induction h with
  | nil => exact ⟨_, .refl []⟩
  | cons x _ ih =>
    obtain ⟨σ, hσ⟩ := ih
    exact ⟨_, hσ.cons x⟩
  | swap x y l =>
    by_cases hxy : x = y
    · subst hxy
      exact ⟨_, .refl _⟩
    · exact ⟨_, .swap hxy l⟩
  | trans _ _ ih ih' =>
    obtain ⟨σ, hσ⟩ := ih
    obtain ⟨τ, hτ⟩ := ih'
    exact ⟨_, hσ.trans hτ⟩

/-! ### Rules -/

theorem Produces.mono {rs rs' : List Rule} (h : ∀ r ∈ rs, r ∈ rs') {xs ys : List Symbol}
    (hstep : Produces rs xs ys) : Produces rs' xs ys := by
  cases hstep with
  | replace left right mem => exact .replace left right (h _ mem)

theorem Derives.mono {rs rs' : List Rule} (h : ∀ r ∈ rs, r ∈ rs') {xs ys : List Symbol}
    (hd : Derives rs xs ys) : Derives rs' xs ys := by
  induction hd with
  | refl => exact .refl xs
  | tail _ step ih => exact ih.tail (step.mono h)

namespace Grammar

variable {σ : Equiv.Perm Nat} {g g' : Grammar} {s n x : Symbol} {xs : List Symbol}

theorem occurs_iff_mem_rules : g.Occurs s ↔ ∃ r ∈ g.rules, s = r.name ∨ s ∈ r.rhs := by
  simp [Occurs, rules]

/-! ### More rules -/

/-- Rules that are among those of another grammar with the same start symbol. -/
structure Contained (g g' : Grammar) : Prop where
  rules : ∀ r ∈ g.rules, r ∈ g'.rules
  start_eq : g'.start = g.start

namespace Contained

theorem exists_production (h : Contained g g') {p : Production} (hp : p ∈ g.productions) :
    ∃ p' ∈ g'.productions, p'.toRule = p.toRule :=
  List.mem_map.mp (h.rules _ (List.mem_map_of_mem hp))

theorem occurs (h : Contained g g') (hs : g.Occurs s) : g'.Occurs s := by
  rw [occurs_iff_mem_rules] at hs ⊢
  obtain ⟨r, hr, hs⟩ := hs
  exact ⟨r, h.rules r hr, hs⟩

theorem mem_terminals (h : Contained g g') (hg : g.Consistent) (hg' : g'.Consistent)
    (hs : s ∈ g.terminals) : s ∈ g'.terminals := by
  obtain ⟨hclass, hoccurs⟩ := hg.mem_terminals_iff.mp hs
  exact hg'.mem_terminals_iff.mpr ⟨hclass, h.occurs hoccurs⟩

theorem mem_nonterminals (h : Contained g g') (hg : g.Consistent) (hg' : g'.Consistent)
    (hs : s ∈ g.nonterminals) : s ∈ g'.nonterminals := by
  obtain ⟨hclass, hoccurs⟩ := hg.mem_nonterminals_iff.mp hs
  exact hg'.mem_nonterminals_iff.mpr ⟨hclass, h.occurs hoccurs⟩

theorem begins (h : Contained g g') (hg : g.Consistent) (hg' : g'.Consistent)
    (hx : g.Begins xs x) : g'.Begins xs x := by
  rcases hx with ⟨hempty, hd⟩ | ⟨ht, rest, hd⟩
  · exact .inl ⟨hempty, hd.mono h.rules⟩
  · exact .inr ⟨h.mem_terminals hg hg' ht, rest, hd.mono h.rules⟩

end Contained

/-- Grammars that texts can hold, with the sets that are computed for them. -/
structure Settled (g : Grammar) : Prop where
  consistent : g.Consistent
  readable : g.Readable
  first : g.FirstSolved
  follow : g.FollowSolved
  least : g.LeastSets

/-- Sets that have nothing but what the rules ask for. They may lack some of it. -/
structure Sound (g : Grammar) : Prop where
  consistent : g.Consistent
  empty_not_mem : Symbol.empty ∉ g.terminals
  least : g.LeastSets

theorem Settled.sound (h : g.Settled) : g.Sound :=
  ⟨h.consistent, fun ht => (h.readable.isReadable h.consistent ht).ne_empty rfl, h.least⟩

namespace Contained

theorem starts (h : Contained g g') (hg : g.Sound) (hg' : g'.Sound) (hfirst : g'.FirstSolved)
    (hxs : ∀ s ∈ xs, g.Occurs s) (hx : Starts g.first xs x) : Starts g'.first xs x :=
  (hfirst.starts_iff hg'.empty_not_mem hg'.least.begins fun s hs => h.occurs (hxs s hs)).mpr
    (h.begins hg.consistent hg'.consistent
      (begins_of_starts hg.empty_not_mem hg.least.begins hx))

/-- With more rules the FIRST sets have no less. -/
theorem has_first (h : Contained g g') (hg : g.Settled) (hg' : g'.Settled)
    (hx : g.first.Has n x) : g'.first.Has n x := by
  have hn : g.Occurs n := (hg.first.mem_iff n).mp hx.mem
  exact starts_singleton_iff.mp (h.starts hg.sound hg'.sound hg'.first
    (List.forall_mem_singleton.mpr hn) (starts_singleton_iff.mpr hx))

/-- With more rules the FOLLOW sets have no less: they have all that the fewer rules ask for. -/
theorem has_follow (h : Contained g g') (hg : g.Sound) (hg' : g'.Sound)
    (hfirst : g'.FirstSolved) (hfollow : g'.FollowSolved) (hx : g.follow.Has n x) :
    g'.follow.Has n x := by
  -- The rules speak of terminals too, which have no sets.
  have hclass : ∀ {n}, n ∈ g.nonterminals → n ∈ g'.nonterminals :=
    h.mem_nonterminals hg.consistent hg'.consistent
  have hbehind : ∀ p ∈ g.productions, ∀ l n r, p.rhs = l ++ n :: r → ∀ s ∈ r, g.Occurs s :=
    fun p hp l n r hrhs s hs => ⟨p, hp, .inr (by simp [hrhs, hs])⟩
  refine hg.least.induction (fun n x => n ∈ g.nonterminals → g'.follow.Has n x) ?_ ?_ ?_ n x hx
    ((hg.least.mem_follow_iff n).mp hx.mem)
  · intro s hs _
    exact hfollow.has_endMark s (h.start_eq.trans hs)
  · intro p hp l n r hrhs x hne hstarts hn
    obtain ⟨p', hp', hrule⟩ := h.exists_production hp
    have hrhs' : p'.rhs = l ++ n :: r := (congrArg Rule.rhs hrule).trans hrhs
    exact hfollow.has_rest p' hp' l n r hrhs' (hclass hn) x hne
      (h.starts hg hg' hfirst (hbehind p hp l n r hrhs) hstarts)
  · intro p hp l n r hrhs hstarts x hname hn
    obtain ⟨p', hp', hrule⟩ := h.exists_production hp
    have hrhs' : p'.rhs = l ++ n :: r := (congrArg Rule.rhs hrule).trans hrhs
    have hname' : g'.follow.Has p'.name x := by
      rw [show p'.name = p.name from congrArg Rule.name hrule]
      exact hname (hg.consistent.name_mem_nonterminals hp)
    exact hfollow.has_name p' hp' l n r hrhs' (hclass hn)
      (h.starts hg hg' hfirst (hbehind p hp l n r hrhs) hstarts) x hname'

end Contained

end Grammar

/-! ### Rules of certain names -/

namespace Grammar

/-- Names whose rules another grammar has with new numbers. The start symbol is one of the symbols
in question, and with a name so are those on its right sides. -/
structure Keeps (σ : Equiv.Perm Nat) (K : Symbol → Prop) (g g' : Grammar) : Prop where
  start_eq : g'.start = g.start
  start : ∀ s, g.start = some s → K s
  inherit : ∀ r ∈ g.rules, K r.name → ∀ x ∈ r.rhs, K x
  getElem?_eq : ∀ n r, g.rules[n]? = some r → K r.name → g'.rules[σ n]? = some r

namespace Keeps

variable {σ : Equiv.Perm Nat} {K : Symbol → Prop} {g g' : Grammar} {xs ys : List Symbol}

theorem mem_rules (h : Keeps σ K g g') {r : Rule} (hr : r ∈ g.rules) (hname : K r.name) :
    r ∈ g'.rules := by
  obtain ⟨n, hn⟩ := List.getElem?_of_mem hr
  exact List.mem_of_getElem? (h.getElem?_eq n r hn hname)

/-- Rows of symbols in question derive what they did. -/
theorem derives (h : Keeps σ K g g') (hxs : ∀ s ∈ xs, K s) (hd : Derives g.rules xs ys) :
    Derives g'.rules xs ys := by
  induction hd with
  | refl => exact .refl xs
  | tail hd step ih =>
    have hall := forall_of_derives h.inherit hd hxs
    cases step with
    | @replace left right r mem =>
      have hname : K r.name := hall r.name (List.mem_append_right left (List.mem_cons_self ..))
      exact ih.tail (.replace left right (h.mem_rules mem hname))

theorem contained (h : Keeps σ K g g') (hall : ∀ s, K s) : Contained g g' :=
  ⟨fun _ hr => h.mem_rules hr (hall _), h.start_eq⟩

end Keeps

end Grammar

/-! ### The same rules -/

/-- Sets of the same symbols with the same members. -/
structure SymbolSets.Same (sets sets' : SymbolSets) : Prop where
  mem_iff : ∀ s, s ∈ sets' ↔ s ∈ sets
  has_iff : ∀ s x, sets'.Has s x ↔ sets.Has s x

namespace Grammar

/-- The same rules with the numbers that `σ` gives them, and the same start symbol. -/
structure Reordered (σ : Equiv.Perm Nat) (g g' : Grammar) : Prop where
  rules : Renumbering σ g.rules g'.rules
  start_eq : g'.start = g.start

namespace Reordered

variable {σ : Equiv.Perm Nat} {g g' : Grammar} {s : Symbol}

theorem symm (h : Reordered σ g g') : Reordered σ.symm g' g := ⟨h.rules.symm, h.start_eq.symm⟩

/-- All rules are kept. -/
theorem keeps (h : Reordered σ g g') : Keeps σ (fun _ => True) g g' where
  start_eq := h.start_eq
  start _ _ := trivial
  inherit _ _ _ _ _ := trivial
  getElem?_eq n _ hn _ := (h.rules.getElem?_eq n).trans hn

theorem contained (h : Reordered σ g g') : Contained g g' := h.keeps.contained fun _ => trivial

theorem occurs_iff (h : Reordered σ g g') : g'.Occurs s ↔ g.Occurs s :=
  ⟨h.symm.contained.occurs, h.contained.occurs⟩

theorem mem_terminals_iff (h : Reordered σ g g') (hg : g.Consistent) (hg' : g'.Consistent) :
    s ∈ g'.terminals ↔ s ∈ g.terminals :=
  ⟨h.symm.contained.mem_terminals hg' hg, h.contained.mem_terminals hg hg'⟩

theorem mem_nonterminals_iff (h : Reordered σ g g') (hg : g.Consistent) (hg' : g'.Consistent) :
    s ∈ g'.nonterminals ↔ s ∈ g.nonterminals :=
  ⟨h.symm.contained.mem_nonterminals hg' hg, h.contained.mem_nonterminals hg hg'⟩

/-- A rule's number is that of its first copy, which is renumbered with the others. -/
theorem ruleNumber?_eq (h : Reordered σ g g') (hg : g.Consistent) (hg' : g'.Consistent)
    (r : Rule) : g'.ruleNumber? r = (g.ruleNumber? r).map σ := by
  rw [ruleNumber?, ruleNumber?, hg'.find?_byRule, hg.find?_byRule, h.rules.idxOf?_eq]

/-- The FIRST sets are the same. -/
theorem first_same (h : Reordered σ g g') (hg : g.Settled) (hg' : g'.Settled) :
    g.first.Same g'.first where
  mem_iff s := by rw [hg.first.mem_iff, hg'.first.mem_iff, h.occurs_iff]
  has_iff _ _ := ⟨h.symm.contained.has_first hg' hg, h.contained.has_first hg hg'⟩

/-- The FOLLOW sets are the same. -/
theorem follow_same (h : Reordered σ g g') (hg : g.Settled) (hg' : g'.Settled) :
    g.follow.Same g'.follow where
  mem_iff s := by
    rw [hg.least.mem_follow_iff, hg'.least.mem_follow_iff,
      h.mem_nonterminals_iff hg.consistent hg'.consistent]
  has_iff _ _ :=
    ⟨h.symm.contained.has_follow hg'.sound hg.sound hg.first hg.follow,
      h.contained.has_follow hg.sound hg'.sound hg'.first hg'.follow⟩

end Reordered

end Grammar

end ShiftReduce
