/-
The automaton of item sets is the deterministic form of the automaton of single items.

* `Automaton.exists_path_of_mem_eval` — there is a path for all symbols with which an item is
  reached;
* `Automaton.Path.eq_of_spelling_eq` — and no two paths have the same symbols;
* `Automaton.Built.finalState_eq` — the final state is the one behind the start symbol, and holds
  the complete start production alone;
* `Automaton.Determinises` — what it is to be the deterministic form;
* `build_determinises` — every grammar that is read from a text and has productions has an automaton
  which is.
-/
import ShiftReduce.Grammar.RuleText
import ShiftReduce.Proofs.Automaton.Construction
import ShiftReduce.Proofs.Grammar.Reading

namespace ShiftReduce

namespace Automaton

variable {g : Grammar} {a : Augmented} {full : Bool} {m : Automaton}

/-! ### Paths and items -/

theorem Coherent.goto_eq_some_iff (h : Coherent g a full m) {n k : Nat} {s : Symbol} :
    m.goto n s = some k ↔ ⟨n, s, k⟩ ∈ m.transitions := by
  constructor
  · exact mem_of_goto
  · intro ht
    obtain ⟨k', hk'⟩ := Option.isSome_iff_exists.mp (goto_isSome ht)
    have heq := h.single _ (mem_of_goto hk') _ ht rfl rfl
    obtain rfl : k' = k := congrArg Transition.target heq
    exact hk'

/-- There is a path for all symbols with which an item is reached. -/
theorem Built.exists_path_of_mem_eval (h : Built g a full m) {w : List Symbol} {i : Item}
    (hi : i ∈ (itemNfa g a full).eval w) : ∃ ts n, m.Path ts n ∧ spelling ts = w := by
  induction w using List.reverseRecOn generalizing i with
  | nil => exact ⟨[], 0, .start, rfl⟩
  | append_singleton w s ih =>
    rw [εNFA.eval_append_singleton, εNFA.mem_stepSet_iff] at hi
    obtain ⟨k, hk, hi⟩ := hi
    obtain ⟨ts, n, hp, rfl⟩ := ih hk
    obtain ⟨items, hitems, hmem⟩ := hp.mem_iff h.toCoherent
    obtain ⟨j, ⟨hnext, _⟩, _⟩ := ((itemNfa g a full).mem_εClosure_iff_exists).mp hi
    -- The state at the end of the path has an item with its dot before the symbol.
    have hgoto := h.expanded n items hitems k ((hmem k).mpr hk) s hnext
    obtain ⟨n', hn'⟩ := Option.isSome_iff_exists.mp hgoto
    exact ⟨ts ++ [⟨n, s, n'⟩], n', .move (t := ⟨n, s, n'⟩) hp (mem_of_goto hn'),
      spelling_concat ts _⟩

theorem Path.exists_mem_eval (h : Coherent g a full m) {ts : List Transition} {n : Nat}
    (hp : m.Path ts n) : ∃ i, i ∈ (itemNfa g a full).eval (spelling ts) := by
  cases hp with
  | start => exact ⟨a.startItem, mem_eval_of_mem_start startItem_mem_start⟩
  | @move ts t hp ht =>
    obtain ⟨items, hitems, hmem⟩ := hp.mem_iff h
    obtain ⟨items', _, hitems', _, ⟨i, hi, hnext⟩, _⟩ := h.moves t ht
    obtain rfl := Option.some.inj (hitems.symm.trans hitems')
    exact ⟨i.moved, spelling_concat ts t ▸ mem_eval_read ((hmem i).mp hi) hnext⟩

theorem Path.eq_of_spelling_eq (h : Coherent g a full m) {ts ts' : List Transition} {n n' : Nat}
    (hp : m.Path ts n) (hp' : m.Path ts' n') (heq : spelling ts = spelling ts') :
    ts = ts' ∧ n = n' := by
  induction hp generalizing ts' n' with
  | start =>
    cases hp' with
    | start => exact ⟨rfl, rfl⟩
    | move _ _ =>
      rw [spelling_concat] at heq
      exact absurd heq.symm (List.append_ne_nil_of_right_ne_nil _ (List.cons_ne_nil _ _))
  | @move ts t hp ht ih =>
    cases hp' with
    | start =>
      rw [spelling_concat] at heq
      exact absurd heq (List.append_ne_nil_of_right_ne_nil _ (List.cons_ne_nil _ _))
    | @move ts' t' hp' ht' =>
      rw [spelling_concat, spelling_concat] at heq
      -- Without their last transitions the paths are the same, so these leave from one state.
      obtain ⟨hinit, hlast⟩ := List.append_inj' heq rfl
      obtain ⟨rfl, hsource⟩ := ih hp' hinit
      obtain rfl := h.single t ht t' ht' hsource (List.cons.inj hlast).1
      exact ⟨rfl, rfl⟩

/-! ### The final state -/

/-- The final state is the one behind the start symbol, and holds the complete start production
alone. -/
theorem Built.finalState_eq (hg : g.Consistent) (h : Built g a full m) :
    ∃ f, m.finalState = some f ∧ m.goto 0 a.goal = some f ∧
      ∀ n items, m.states[n]? = some items → (a.acceptItem ∈ items ↔ n = f) := by
  -- Every state with the complete start production is at the end of the path of the start symbol.
  have hgoal : a.acceptItem ∈ (itemNfa g a full).eval [a.goal] := acceptItem_mem_eval
  obtain ⟨ts, k, hp, hts⟩ := h.exists_path_of_mem_eval hgoal
  obtain ⟨items, hitems, hmem⟩ := hp.mem_iff h.toCoherent
  have honly : ∀ n items', m.states[n]? = some items' → a.acceptItem ∈ items' → n = k := by
    intro n items' hn haccept
    obtain ⟨ts', hp'⟩ := h.reached n (List.getElem?_eq_some_iff.mp hn).1
    obtain ⟨items₁, hitems₁, hmem₁⟩ := hp'.mem_iff h.toCoherent
    obtain rfl := Option.some.inj (hn.symm.trans hitems₁)
    have hspelling := eval_acceptItem hg ((hmem₁ a.acceptItem).mp haccept)
    exact (hp'.eq_of_spelling_eq h.toCoherent hp (hspelling.trans hts.symm)).2
  have hholds : a.acceptItem ∈ items := (hmem a.acceptItem).mpr (hts ▸ acceptItem_mem_eval)
  obtain ⟨f, hf⟩ :=
    Option.isSome_iff_exists.mp (h.finalState_isSome items (List.mem_of_getElem? hitems) hholds)
  obtain ⟨items', hitems', haccept⟩ := h.mem_finalState f hf
  obtain rfl := honly f items' hitems' haccept
  refine ⟨f, hf, ?_, fun n items₁ hn => ⟨honly n items₁ hn, ?_⟩⟩
  · cases hp with
    | start => cases hts
    | @move ts t hp ht =>
      rw [spelling_concat] at hts
      obtain ⟨hnil, hgoal⟩ := List.append_inj' (hts.trans (List.nil_append [a.goal]).symm) rfl
      obtain ⟨rfl, hzero⟩ := hp.eq_of_spelling_eq h.toCoherent .start hnil
      rw [← (List.cons.inj hgoal).1, ← hzero]
      exact h.goto_eq_some_iff.mpr ht
  · rintro rfl
    obtain rfl := Option.some.inj (hn.symm.trans hitems)
    exact hholds

/-! ### The deterministic form -/

/-- Automata of item sets that are the deterministic form of the automaton of single items, with
every state in use and none twice. -/
structure Determinises (g : Grammar) (a : Augmented) (full : Bool) (m : Automaton) : Prop where
  /-- There is a path exactly for the symbols with which an item is reached. -/
  path_iff : ∀ w, (∃ ts n, m.Path ts n ∧ spelling ts = w) ↔ ∃ i, i ∈ (itemNfa g a full).eval w
  /-- It is the only path with these symbols. -/
  path_unique : ∀ ts ts' n n', m.Path ts n → m.Path ts' n' → spelling ts = spelling ts' →
    ts = ts' ∧ n = n'
  /-- The state at its end holds exactly the items that are reached. -/
  path_items : ∀ ts n, m.Path ts n → ∃ items, m.states[n]? = some items ∧
    ∀ i, i ∈ items ↔ i ∈ (itemNfa g a full).eval (spelling ts)
  states_differ : ∀ (n n' : Nat) (items items' : List Item), m.states[n]? = some items →
    m.states[n']? = some items' → (∀ i, i ∈ items ↔ i ∈ items') → n = n'
  items_nodup : ∀ items ∈ m.states, items.Nodup
  reachable : ∀ n < m.states.length, ∃ ts, m.Path ts n
  /-- The final state is the only one with the complete start production. -/
  final : ∃ f, m.finalState = some f ∧ m.goto 0 a.goal = some f ∧
    ∀ n items, m.states[n]? = some items → (a.acceptItem ∈ items ↔ n = f)

theorem Built.determinises (hg : g.Consistent) (h : Built g a full m) :
    Determinises g a full m where
  path_iff w := by
    constructor
    · rintro ⟨ts, n, hp, rfl⟩
      exact hp.exists_mem_eval h.toCoherent
    · rintro ⟨i, hi⟩
      exact h.exists_path_of_mem_eval hi
  path_unique _ _ _ _ hp hp' := hp.eq_of_spelling_eq h.toCoherent hp'
  path_items _ _ hp := hp.mem_iff h.toCoherent
  states_differ := h.apart
  items_nodup := h.nodup
  reachable := h.reached
  final := h.finalState_eq hg

end Automaton

/-- The automaton of every grammar that is read from a text and has productions is the
deterministic form of its automaton of single items. -/
theorem build_determinises (text : String) (full : Bool)
    (hne : (Grammar.parse text).1.productions ≠ []) :
    ∃ a m, Augmented.ofGrammar (Grammar.parse text).1 = .ok a ∧
      Automaton.build (Grammar.parse text).1 a full = .ok m ∧
      m.Determinises (Grammar.parse text).1 a full := by
  have hg := Grammar.parse_consistent text
  obtain ⟨p, hp⟩ := List.exists_mem_of_ne_nil _ hne
  obtain ⟨s, hs⟩ := hg.exists_start hp
  obtain ⟨a, ha⟩ : ∃ a, Augmented.ofGrammar (Grammar.parse text).1 = .ok a :=
    ⟨⟨s, _⟩, Augmented.ofGrammar_eq_ok_iff.mpr ⟨hs, rfl⟩⟩
  obtain ⟨m, hm, hbuilt⟩ := Automaton.build_ok hg ha full
  exact ⟨a, m, ha, hm, hbuilt.determinises hg⟩

/-- Nullable rules, left recursion and a rule that is entered twice. -/
theorem build_determinises_lists :
    (Grammar.parse "L -> L , a | M M -> a | ε M -> a").1.productions ≠ [] ∧
      ∃ a m, Augmented.ofGrammar (Grammar.parse "L -> L , a | M M -> a | ε M -> a").1 = .ok a ∧
        Automaton.build (Grammar.parse "L -> L , a | M M -> a | ε M -> a").1 a true = .ok m ∧
        m.Determinises (Grammar.parse "L -> L , a | M M -> a | ε M -> a").1 a true := by
  have hne : (Grammar.parse "L -> L , a | M M -> a | ε M -> a").1.productions ≠ [] := by
    decide +kernel
  exact ⟨hne, build_determinises _ true hne⟩

end ShiftReduce
