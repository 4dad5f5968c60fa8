/-
States of two automata to which paths with the same symbols lead.

If the items that are reached in one automaton have counterparts in the other, then so have its
paths, the items of its states and its transitions. If this holds in both directions then the
states are paired off, so that there is a renumbering of them.

* `Automaton.Related` — states at the ends of paths with the same symbols;
* `Carries` — items that are reached have counterparts that are reached with the same symbols;
* `Automaton.Built.exists_path_of_carries` — paths have counterparts;
* `Automaton.Related.exists_items`, `Automaton.Related.goto` — and so have items and transitions;
* `Automaton.Related.unique` — if items are carried in both directions, no state has two
  counterparts;
* `Automaton.Related.exists_perm`, `Automaton.Built.goto_map` — counterparts hold each other's items
  and have each other's transitions;
* `Automaton.Built.exists_renumbering` — the states are as many, and are renumbered.
-/
import Mathlib.Data.Fin.Pigeonhole
import ShiftReduce.Proofs.Automaton.Determinisation

namespace ShiftReduce

/-- A one-to-one map of the numbers below a bound is a part of a permutation of all numbers. -/
theorem exists_perm_of_injective {N : Nat} {φ : Fin N → Fin N} (h : Function.Injective φ) :
    ∃ π : Equiv.Perm Nat, (∀ n, π n < N ↔ n < N) ∧ ∀ n : Fin N, π n = φ n := by
  -- Numbers from the bound on stay as they are.
  refine ⟨Equiv.Perm.extendDomain (Equiv.ofBijective φ (Finite.injective_iff_bijective.mp h))
    Fin.equivSubtype, ?_, ?_⟩
  · intro n
    by_cases hn : n < N
    · rw [Equiv.Perm.extendDomain_apply_subtype _ Fin.equivSubtype hn]
      exact iff_of_true (Fin.isLt _) hn
    · rw [Equiv.Perm.extendDomain_apply_not_subtype _ Fin.equivSubtype hn]
  · intro n
    rw [Equiv.Perm.extendDomain_apply_subtype _ Fin.equivSubtype n.isLt]
    rfl

/-- The items that one automaton of items reaches are taken by `f` to items that the other reaches
with the same symbols, and the symbols behind their dots stay. -/
structure Carries (f : Item → Item) (M M' : εNFA Symbol Item) : Prop where
  mem_eval : ∀ {w i}, i ∈ M.eval w → f i ∈ M'.eval w
  next?_eq : ∀ i, (f i).next? = i.next?

namespace Automaton

/-- States of two automata to which paths with the same symbols lead. -/
def Related (m m' : Automaton) (p q : Nat) : Prop :=
  ∃ ts ts', m.Path ts p ∧ m'.Path ts' q ∧ spelling ts' = spelling ts

variable {g g' : Grammar} {a a' : Augmented} {full full' : Bool} {m m' : Automaton} {p q : Nat}
  {s : Symbol}

theorem Coherent.lt_of_goto (h : m.Coherent g a full) {k : Nat} (hgoto : m.goto p s = some k) :
    p < m.states.length ∧ k < m.states.length := by
  obtain ⟨_, _, hitems, hitems', _⟩ := h.moves _ (mem_of_goto hgoto)
  exact ⟨(List.getElem?_eq_some_iff.mp hitems).1, (List.getElem?_eq_some_iff.mp hitems').1⟩

theorem Built.length_pos (h : m.Built g a full) : 0 < m.states.length := by
  obtain ⟨_, hzero, _⟩ := h.initial
  exact (List.getElem?_eq_some_iff.mp hzero).1

/-! ### One direction -/

section Carries

variable {f : Item → Item} (hf : Carries f (itemNfa g a full) (itemNfa g' a' full'))

include hf

/-- Every path has its counterpart. -/
theorem Built.exists_path_of_carries (h' : m'.Built g' a' full') (h : m.Coherent g a full)
    {ts : List Transition} (hp : m.Path ts p) :
    ∃ ts' q, m'.Path ts' q ∧ spelling ts' = spelling ts := by
  obtain ⟨i, hi⟩ := hp.exists_mem_eval h
  exact h'.exists_path_of_mem_eval (hf.mem_eval hi)

theorem Built.exists_related (h' : m'.Built g' a' full') (h : m.Built g a full)
    (hp : p < m.states.length) : ∃ q, m.Related m' p q := by
  obtain ⟨ts, hts⟩ := h.reached p hp
  obtain ⟨ts', q, hts', heq⟩ := h'.exists_path_of_carries hf h.toCoherent hts
  exact ⟨q, ts, ts', hts, hts', heq⟩

namespace Related

/-- Of related states the second holds the counterparts of all items of the first. -/
theorem exists_items (hr : Related m m' p q) (h : m.Coherent g a full)
    (h' : m'.Coherent g' a' full') : ∃ items items', m.states[p]? = some items ∧
      m'.states[q]? = some items' ∧ ∀ i ∈ items, f i ∈ items' := by
  obtain ⟨ts, ts', hp, hq, heq⟩ := hr
  obtain ⟨items, hitems, hmem⟩ := hp.mem_iff h
  obtain ⟨items', hitems', hmem'⟩ := hq.mem_iff h'
  refine ⟨items, items', hitems, hitems', fun i hi => ?_⟩
  rw [hmem', heq]
  exact hf.mem_eval ((hmem i).mp hi)

theorem goto (hr : Related m m' p q) (h : m.Coherent g a full) (h' : m'.Built g' a' full')
    {k : Nat} (hgoto : m.goto p s = some k) :
    ∃ k', m'.goto q s = some k' ∧ Related m m' k k' := by
  have ht := mem_of_goto hgoto
  obtain ⟨items, items', hitems, hitems', hmem⟩ := hr.exists_items hf h h'.toCoherent
  obtain ⟨items₁, _, hitems₁, _, ⟨i, hi, hnext⟩, _⟩ := h.moves _ ht
  obtain rfl := Option.some.inj (hitems.symm.trans hitems₁)
  -- The counterpart of the item that the transition moves is in the second state.
  obtain ⟨k', hgoto'⟩ := Option.isSome_iff_exists.mp
    (h'.expanded q items' hitems' (f i) (hmem i hi) s ((hf.next?_eq i).trans hnext))
  obtain ⟨ts, ts', hp, hq, heq⟩ := hr
  refine ⟨k', hgoto', ts ++ [⟨p, s, k⟩], ts' ++ [⟨q, s, k'⟩], .move (t := ⟨p, s, k⟩) hp ht,
    .move (t := ⟨q, s, k'⟩) hq (mem_of_goto hgoto'), ?_⟩
  rw [spelling_concat, spelling_concat, heq]

end Related

end Carries

namespace Related

theorem start : Related m m' 0 0 := ⟨[], [], .start, .start, rfl⟩

theorem symm (hr : Related m m' p q) : Related m' m q p := by
  obtain ⟨ts, ts', hp, hq, heq⟩ := hr
  exact ⟨ts', ts, hq, hp, heq.symm⟩

theorem lt_right (hr : Related m m' p q) (h' : m'.Coherent g' a' full') :
    q < m'.states.length := by
  obtain ⟨_, ts', _, hq, _⟩ := hr
  obtain ⟨_, hitems, _⟩ := hq.mem_iff h'
  exact (List.getElem?_eq_some_iff.mp hitems).1

end Related

/-! ### Both directions -/

section Mirror

variable {f : Equiv.Perm Item} (hf : Carries f (itemNfa g a full) (itemNfa g' a' full'))
  (hf' : Carries f.symm (itemNfa g' a' full') (itemNfa g a full))

include hf hf'

/-- Of related states the second holds the counterparts of the items of the first, and nothing
else. -/
theorem Related.mem_iff (hr : Related m m' p q) (h : m.Coherent g a full)
    (h' : m'.Coherent g' a' full') : ∃ items items', m.states[p]? = some items ∧
      m'.states[q]? = some items' ∧ ∀ i, f i ∈ items' ↔ i ∈ items := by
  obtain ⟨items, items', hitems, hitems', hforth⟩ := hr.exists_items hf h h'
  obtain ⟨items₁', items₁, hitems₁', hitems₁, hback⟩ := hr.symm.exists_items hf' h' h
  obtain rfl := Option.some.inj (hitems.symm.trans hitems₁)
  obtain rfl := Option.some.inj (hitems'.symm.trans hitems₁')
  refine ⟨items, items', hitems, hitems', fun i => ⟨fun hi => ?_, hforth i⟩⟩
  exact f.symm_apply_apply i ▸ hback (f i) hi

theorem Related.exists_perm (hr : Related m m' p q) (h : m.Built g a full)
    (h' : m'.Built g' a' full') {items : List Item} (hp : m.states[p]? = some items) :
    ∃ items', m'.states[q]? = some items' ∧ items'.Perm (items.map f) := by
  obtain ⟨items₁, items', hitems, hitems', hmem⟩ :=
    hr.mem_iff hf hf' h.toCoherent h'.toCoherent
  obtain rfl := Option.some.inj (hp.symm.trans hitems)
  have hnodup := (h.nodup items (List.mem_of_getElem? hp)).map f.injective
  have hnodup' := h'.nodup items' (List.mem_of_getElem? hitems')
  refine ⟨items', hitems', (List.perm_ext_iff_of_nodup hnodup' hnodup).mpr fun i => ?_⟩
  rw [← f.apply_symm_apply i, hmem, List.mem_map_of_injective f.injective]

/-- No state has two counterparts. -/
theorem Related.unique (hr : Related m m' p q) {q' : Nat} (hr' : Related m m' p q')
    (h : m.Coherent g a full) (h' : m'.Coherent g' a' full') : q = q' := by
  obtain ⟨items, items₁, hitems, hitems₁, hmem₁⟩ := hr.mem_iff hf hf' h h'
  obtain ⟨items', items₂, hitems', hitems₂, hmem₂⟩ := hr'.mem_iff hf hf' h h'
  obtain rfl := Option.some.inj (hitems.symm.trans hitems')
  refine h'.apart q q' items₁ items₂ hitems₁ hitems₂ fun i => ?_
  rw [← f.apply_symm_apply i, hmem₁, hmem₂]

/-- Each state has its counterpart, and different ones have different counterparts. -/
theorem Built.exists_counterparts (h : m.Built g a full) (h' : m'.Built g' a' full') :
    ∃ φ : Fin m.states.length → Fin m'.states.length, Function.Injective φ ∧
      ∀ n : Fin m.states.length, Related m m' n (φ n) := by
  have hf'' : Carries f.symm.symm (itemNfa g a full) (itemNfa g' a' full') := hf
  choose φ hφ using fun n : Fin m.states.length => h'.exists_related hf h n.isLt
  refine ⟨fun n => ⟨φ n, (hφ n).lt_right h'.toCoherent⟩, fun n n' heq => ?_, hφ⟩
  have hsame : φ n = φ n' := congrArg Fin.val heq
  exact Fin.ext ((hφ n).symm.unique hf' hf'' (hsame ▸ (hφ n').symm) h'.toCoherent h.toCoherent)

/-- A map that takes states to their counterparts takes transitions to transitions, and there are no
others between counterparts. -/
theorem Built.goto_map (h : m.Built g a full) (h' : m'.Built g' a' full') {φ : Nat → Nat}
    (hlt : ∀ n, φ n < m'.states.length → n < m.states.length)
    (hφ : ∀ n < m.states.length, Related m m' n (φ n)) (n : Nat) (s : Symbol) :
    m'.goto (φ n) s = (m.goto n s).map φ := by
  cases hk : m.goto n s with
  | some k =>
    obtain ⟨hn, hk'⟩ := h.lt_of_goto hk
    obtain ⟨k', hgoto', hr⟩ := (hφ n hn).goto hf h.toCoherent h' hk
    rw [hgoto', hr.unique hf hf' (hφ k hk') h.toCoherent h'.toCoherent]
    rfl
  | none =>
    cases hk' : m'.goto (φ n) s with
    | none => rfl
    | some k' =>
      have hn := hlt n (h'.lt_of_goto hk').1
      obtain ⟨k, hgoto, _⟩ := (hφ n hn).symm.goto hf' h'.toCoherent h hk'
      cases hk.symm.trans hgoto

/-- There are as many states, and a renumbering takes each to its counterpart. -/
theorem Built.exists_renumbering (h : m.Built g a full) (h' : m'.Built g' a' full') :
    m'.states.length = m.states.length ∧ ∃ φ : Equiv.Perm Nat,
      (∀ n, φ n < m.states.length ↔ n < m.states.length) ∧
      ∀ n < m.states.length, Related m m' n (φ n) := by
  have hf'' : Carries f.symm.symm (itemNfa g a full) (itemNfa g' a' full') := hf
  obtain ⟨φ, hinj, hφ⟩ := h.exists_counterparts hf hf' h'
  obtain ⟨ψ, hinj', _⟩ := h'.exists_counterparts hf' hf'' h
  have hlength : m'.states.length = m.states.length :=
    Nat.le_antisymm (Fin.le_of_injective ψ hinj') (Fin.le_of_injective φ hinj)
  have hcast : Function.Injective (Fin.cast hlength ∘ φ) :=
    (Fin.cast_injective hlength).comp hinj
  obtain ⟨π, hbelow, hπ⟩ := exists_perm_of_injective hcast
  refine ⟨hlength, π, hbelow, fun n hn => ?_⟩
  rw [show π n = φ ⟨n, hn⟩ from hπ ⟨n, hn⟩]
  exact hφ ⟨n, hn⟩

end Mirror

end Automaton

end ShiftReduce
