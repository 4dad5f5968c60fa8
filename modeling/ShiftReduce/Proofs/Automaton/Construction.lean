/-
The construction of the automaton keeps its invariant, and there are steps enough for it.

States are expanded in the order in which they were found. At every moment the transitions lead
where the moves of single items lead, and each state is reached from state 0; the states before
the one that is expanded next have all their transitions.

* `Automaton.Path` — paths from state 0, as lists of transitions;
* `Automaton.Coherent` — what holds of states and transitions all along;
* `Automaton.Path.mem_iff` — the state at the end of a path holds the items that are reached with
  the symbols of the path;
* `Automaton.Gains`, `Automaton.expandOn_ok` — one symbol behind a dot gets its transition;
* `Automaton.Halfway`, `Automaton.expand_ok` — and all symbols of one state do, one by one;
* `Automaton.Expanding`, `Automaton.expandFrom_ok` — and all states do, one by one;
* `Automaton.mem_initial_iff` — state 0 holds what is reached before a symbol is read;
* `Automaton.build_ok` — every grammar has its automaton: the states are different sets of items,
  which bounds their number.
-/
import Mathlib.Data.Finset.Powerset
import ShiftReduce.Proofs.Automaton.Closures
import ShiftReduce.Proofs.Outcome

namespace ShiftReduce

theorem getElem?_of_isPrefix {α : Type} {l l' : List α} (h : l <+: l') {n : Nat} {x : α}
    (hn : l[n]? = some x) : l'[n]? = some x := by
  obtain ⟨rest, rfl⟩ := h
  rw [List.getElem?_append_left (List.getElem?_eq_some_iff.mp hn).1, hn]

namespace Automaton

/-! ### Paths -/

/-- Paths from state 0, by their transitions, and the state in which each ends. -/
inductive Path (m : Automaton) : List Transition → Nat → Prop
  | start : Path m [] 0
  | move {ts : List Transition} {t : Transition} : Path m ts t.source → t ∈ m.transitions →
      Path m (ts ++ [t]) t.target

/-- The symbols on the transitions of a path. -/
def spelling (ts : List Transition) : List Symbol := ts.map Transition.symbol

theorem spelling_concat (ts : List Transition) (t : Transition) :
    spelling (ts ++ [t]) = spelling ts ++ [t.symbol] := List.map_append

theorem Path.mono {m m' : Automaton} (h : m.transitions ⊆ m'.transitions) {ts : List Transition}
    {n : Nat} (hp : m.Path ts n) : m'.Path ts n := by
  induction hp with
  | start => exact .start
  | move _ ht ih => exact .move ih (h ht)

/-- Whether there is a path to every state. -/
def Reached (m : Automaton) : Prop := ∀ n < m.states.length, ∃ ts, m.Path ts n

variable {m : Automaton} {n : Nat} {s : Symbol}

theorem mem_of_goto {k : Nat} (h : m.goto n s = some k) : ⟨n, s, k⟩ ∈ m.transitions := by
  obtain ⟨t, ht, rfl⟩ := Option.map_eq_some_iff.mp h
  have hon := List.find?_some ht
  obtain ⟨rfl, rfl⟩ := of_decide_eq_true hon
  exact List.mem_of_find?_eq_some ht

theorem goto_isSome {t : Transition} (h : t ∈ m.transitions) :
    (m.goto t.source t.symbol).isSome := by
  rw [goto, Option.isSome_map, List.find?_isSome]
  exact ⟨t, h, by simp⟩

/-! ### The invariant -/

theorem sameItems_iff {l l' : List Item} : sameItems l l' = true ↔ ∀ i, i ∈ l ↔ i ∈ l' := by
  rw [sameItems, Bool.and_eq_true, List.all_eq_true, List.all_eq_true]
  constructor
  · rintro ⟨h, h'⟩ i
    exact ⟨fun hi => of_decide_eq_true (h i hi), fun hi => of_decide_eq_true (h' i hi)⟩
  · intro h
    exact ⟨fun i hi => decide_eq_true ((h i).mp hi), fun i hi => decide_eq_true ((h i).mpr hi)⟩

/-- What holds of an automaton at every moment of its construction. -/
structure Coherent (g : Grammar) (a : Augmented) (full : Bool) (m : Automaton) : Prop where
  augmented_eq : m.augmented = a
  closures_eq : m.closures = closureTable g a
  nodup : ∀ items ∈ m.states, items.Nodup
  /-- No two states hold the same items. -/
  apart : ∀ (n n' : Nat) (items items' : List Item), m.states[n]? = some items →
    m.states[n']? = some items' → (∀ i, i ∈ items ↔ i ∈ items') → n = n'
  initial : ∃ items, m.states[0]? = some items ∧ ∀ i, i ∈ items ↔ i ∈ (itemNfa g a full).eval []
  /-- A transition is on a symbol behind a dot, and leads where the items lead. -/
  moves : ∀ t ∈ m.transitions, ∃ items items', m.states[t.source]? = some items ∧
    m.states[t.target]? = some items' ∧ (∃ i ∈ items, i.next? = some t.symbol) ∧
    ∀ i, i ∈ items' ↔ i ∈ (itemNfa g a full).stepSet {j | j ∈ items} t.symbol
  /-- There is one transition at most from a state on a symbol. -/
  single : ∀ t ∈ m.transitions, ∀ t' ∈ m.transitions, t.source = t'.source →
    t.symbol = t'.symbol → t = t'
  mem_finalState : ∀ n, m.finalState = some n →
    ∃ items, m.states[n]? = some items ∧ a.acceptItem ∈ items
  finalState_isSome : ∀ items ∈ m.states, a.acceptItem ∈ items → m.finalState.isSome

variable {g : Grammar} {a : Augmented} {full : Bool} {items : List Item}

theorem stateOf?_eq_some {n : Nat} (h : m.stateOf? items = some n) :
    ∃ items', m.states[n]? = some items' ∧ ∀ i, i ∈ items' ↔ i ∈ items := by
  obtain ⟨hlt, hsame, _⟩ := List.findIdx?_eq_some_iff_getElem.mp h
  refine ⟨_, List.getElem?_eq_getElem hlt, fun i => ?_⟩
  exact (sameItems_iff.mp hsame i).symm

theorem stateOf?_eq_none (h : m.stateOf? items = none) {n : Nat} {items' : List Item}
    (hn : m.states[n]? = some items') : ¬∀ i, i ∈ items ↔ i ∈ items' := by
  intro hsame
  have hfalse := List.findIdx?_eq_none_iff.mp h items' (List.mem_of_getElem? hn)
  rw [sameItems_iff.mpr hsame] at hfalse
  cases hfalse

/-- The state at the end of a path holds the items that are reached with the symbols of the path. -/
theorem Path.mem_iff (h : Coherent g a full m) {ts : List Transition} (hp : m.Path ts n) :
    ∃ items, m.states[n]? = some items ∧
      ∀ i, i ∈ items ↔ i ∈ (itemNfa g a full).eval (spelling ts) := by
  induction hp with
  | start => exact h.initial
  | @move ts t _ ht ih =>
    obtain ⟨items, hitems, hmem⟩ := ih
    obtain ⟨items₁, items', hitems₁, hitems', _, hstep⟩ := h.moves t ht
    obtain rfl := Option.some.inj (hitems.symm.trans hitems₁)
    refine ⟨items', hitems', fun i => ?_⟩
    have hset : {j | j ∈ items} = (itemNfa g a full).eval (spelling ts) := Set.ext hmem
    rw [hstep, hset, spelling_concat, εNFA.eval_append_singleton]

theorem Coherent.valid (h : Coherent g a full m) (hr : m.Reached) (hn : m.states[n]? = some items)
    {i : Item} (hi : i ∈ items) : a.Valid i := by
  obtain ⟨ts, hp⟩ := hr n (List.getElem?_eq_some_iff.mp hn).1
  obtain ⟨items', hitems', hmem⟩ := hp.mem_iff h
  obtain rfl := Option.some.inj (hn.symm.trans hitems')
  exact valid_of_mem_eval ((hmem i).mp hi)

/-! ### One more state, one more transition -/

theorem Coherent.addState (h : Coherent g a full m) (hnodup : items.Nodup)
    (hnew : m.stateOf? items = none) : Coherent g a full (m.addState items) := by
  -- A number is that of an old state or of the new one.
  have hold : ∀ {n : Nat} {l : List Item}, (m.states ++ [items])[n]? = some l →
      m.states[n]? = some l ∨ n = m.states.length ∧ l = items := by
    intro n l hl
    rw [List.getElem?_append] at hl
    split at hl
    · exact .inl hl
    · next hlt =>
      rw [List.getElem?_singleton] at hl
      split at hl
      · exact .inr ⟨by omega, (Option.some.inj hl).symm⟩
      · cases hl
  have hkeep : ∀ {n : Nat} {l : List Item}, m.states[n]? = some l →
      (m.states ++ [items])[n]? = some l := getElem?_of_isPrefix (List.prefix_append _ _)
  refine ⟨h.augmented_eq, h.closures_eq, fun l hl => ?_, fun n n' l l' hl hl' hsame => ?_, ?_,
    fun t ht => ?_, h.single, fun n hn => ?_, fun l hl hmem => ?_⟩
  · rcases List.mem_append.mp hl with hl | hl
    · exact h.nodup l hl
    · exact List.mem_singleton.mp hl ▸ hnodup
  · rcases hold hl with hin | ⟨rfl, rfl⟩ <;> rcases hold hl' with hin' | ⟨rfl, rfl⟩
    · exact h.apart n n' l l' hin hin' hsame
    · exact absurd (fun i => (hsame i).symm) (stateOf?_eq_none hnew hin)
    · exact absurd hsame (stateOf?_eq_none hnew hin')
    · rfl
  · obtain ⟨l, hl, hmem⟩ := h.initial
    exact ⟨l, hkeep hl, hmem⟩
  · obtain ⟨l, l', hl, hl', hrest⟩ := h.moves t ht
    exact ⟨l, l', hkeep hl, hkeep hl', hrest⟩
  · have hn : (if m.augmented.acceptItem ∈ items then some m.states.length else m.finalState) =
        some n := hn
    split at hn
    · next haccept =>
      obtain rfl := Option.some.inj hn
      exact ⟨items, List.getElem?_concat_length, h.augmented_eq ▸ haccept⟩
    · obtain ⟨l, hl, hmem⟩ := h.mem_finalState n hn
      exact ⟨l, hkeep hl, hmem⟩
  · show (if m.augmented.acceptItem ∈ items then some m.states.length else m.finalState).isSome
    split
    · rfl
    · next hno =>
      rcases List.mem_append.mp hl with hl | hl
      · exact h.finalState_isSome l hl hmem
      · obtain rfl := List.mem_singleton.mp hl
        exact absurd (h.augmented_eq ▸ hmem) hno

theorem addTransition_eq_ok {t : Transition} (h : m.goto t.source t.symbol = none) :
    m.addTransition t = .ok { m with transitions := m.transitions ++ [t] } := by
  rw [addTransition, h]

theorem Coherent.addTransition (h : Coherent g a full m) {t : Transition} {items' : List Item}
    (hfree : m.goto t.source t.symbol = none) (hsource : m.states[t.source]? = some items)
    (htarget : m.states[t.target]? = some items') (hnext : ∃ i ∈ items, i.next? = some t.symbol)
    (hstep : ∀ i, i ∈ items' ↔ i ∈ (itemNfa g a full).stepSet {j | j ∈ items} t.symbol) :
    Coherent g a full { m with transitions := m.transitions ++ [t] } := by
  have hother : ∀ t' ∈ m.transitions, t'.source = t.source → t'.symbol ≠ t.symbol := by
    intro t' ht' hs hsym
    have hsome := goto_isSome ht'
    rw [hs, hsym, hfree] at hsome
    cases hsome
  refine ⟨h.augmented_eq, h.closures_eq, h.nodup, h.apart, h.initial, fun t' ht' => ?_,
    fun t₁ h₁ t₂ h₂ hs hsym => ?_, h.mem_finalState, h.finalState_isSome⟩
  · rcases List.mem_append.mp ht' with ht' | ht'
    · exact h.moves t' ht'
    · obtain rfl := List.mem_singleton.mp ht'
      exact ⟨items, items', hsource, htarget, hnext, hstep⟩
  · rcases List.mem_append.mp h₁ with hin₁ | hin₁ <;>
      rcases List.mem_append.mp h₂ with hin₂ | hin₂
    · exact h.single t₁ hin₁ t₂ hin₂ hs hsym
    · obtain rfl := List.mem_singleton.mp hin₂
      exact absurd hsym (hother t₁ hin₁ hs)
    · obtain rfl := List.mem_singleton.mp hin₁
      exact absurd hsym.symm (hother t₂ hin₂ hs.symm)
    · exact (List.mem_singleton.mp hin₁).trans (List.mem_singleton.mp hin₂).symm

/-! ### Expanding -/

theorem kernelOn_eq_ok (s : Symbol) (items : List Item) :
    kernelOn s items = .ok ((items.filter (·.next? = some s)).map Item.moved) := by
  induction items with
  | nil => rfl
  | cons i items ih =>
    rw [kernelOn, List.filter_cons]
    by_cases hnext : i.next? = some s
    · rw [if_pos hnext, if_pos (decide_eq_true hnext), Item.advance_of_next? hnext, ih]
      rfl
    · rw [if_neg hnext, if_neg (by simpa using hnext), ih]

theorem nodup_kernel (h : items.Nodup) (s : Symbol) :
    ((items.filter (·.next? = some s)).map Item.moved).Nodup := by
  refine (h.filter _).map fun i j hij => ?_
  obtain ⟨n, dot, r⟩ := i
  obtain ⟨n', dot', r'⟩ := j
  simpa [Item.moved] using hij

/-- Closing the items whose dot has passed a symbol gives what all items move to on it. -/
theorem mem_closeKernel_moved_iff {j : Item} :
    j ∈ closeKernel (closureTable g a) ((items.filter (·.next? = some s)).map Item.moved) ↔
      j ∈ (itemNfa g a full).stepSet {i | i ∈ items} s := by
  rw [mem_closeKernel_iff full, εNFA.mem_stepSet_iff, εNFA.mem_εClosure_iff_exists]
  constructor
  · rintro ⟨k, hk, hj⟩
    obtain ⟨i, hi, rfl⟩ := List.mem_map.mp hk
    obtain ⟨hi, hnext⟩ := List.mem_filter.mp hi
    refine ⟨i, hi, ((itemNfa g a full).mem_εClosure_iff_exists).mpr ⟨i.moved, ?_, hj⟩⟩
    exact ⟨of_decide_eq_true hnext, rfl⟩
  · rintro ⟨i, hi, hj⟩
    obtain ⟨k, ⟨hnext, rfl⟩, hj⟩ := ((itemNfa g a full).mem_εClosure_iff_exists).mp hj
    refine ⟨i.moved, List.mem_map_of_mem (List.mem_filter.mpr ⟨hi, ?_⟩), hj⟩
    exact decide_eq_true hnext

/-- What holds of `m'` after state `n` of `m` got a transition on the symbol `s`. -/
structure Gains (g : Grammar) (a : Augmented) (full : Bool) (m : Automaton) (n : Nat) (s : Symbol)
    (m' : Automaton) : Prop where
  coherent : Coherent g a full m'
  reached : m'.Reached
  grows : m.states <+: m'.states
  isSome : (m'.goto n s).isSome
  others : ∀ n' s', ¬(n' = n ∧ s' = s) → m'.goto n' s' = m.goto n' s'

/-- The transition that is missing is added to the automaton itself, or to the one that has the
state it leads to as its last. -/
theorem Coherent.exists_gains {m₁ : Automaton} (h₁ : Coherent g a full m₁)
    (htrans : m₁.transitions = m.transitions) (hbegin : m.states <+: m₁.states) (hr : m.Reached)
    (hn : m.states[n]? = some items) (hnext : ∃ i ∈ items, i.next? = some s)
    (hfree : m.goto n s = none) {k : Nat} {items' : List Item} (hk : m₁.states[k]? = some items')
    (hstep : ∀ i, i ∈ items' ↔ i ∈ (itemNfa g a full).stepSet {j | j ∈ items} s)
    (hlast : ∀ n' < m₁.states.length, n' < m.states.length ∨ n' = k) :
    ∃ m', m₁.addTransition ⟨n, s, k⟩ = .ok m' ∧ Gains g a full m n s m' := by
  have hgoto : ∀ n' s', m₁.goto n' s' = m.goto n' s' := by
    intro n' s'
    rw [goto, goto, htrans]
  have hfree₁ : m₁.goto n s = none := (hgoto n s).trans hfree
  have hok := addTransition_eq_ok (m := m₁) (t := ⟨n, s, k⟩) hfree₁
  have hn₁ : m₁.states[n]? = some items := getElem?_of_isPrefix hbegin hn
  obtain ⟨ts, hp⟩ := hr n (List.getElem?_eq_some_iff.mp hn).1
  have hsub : m.transitions ⊆ m₁.transitions ++ [⟨n, s, k⟩] := fun t ht =>
    List.mem_append_left _ (htrans ▸ ht)
  refine ⟨_, hok, h₁.addTransition hfree₁ hn₁ hk hnext hstep, fun n' hn' => ?_, hbegin, ?_,
    fun n' s' hother => ?_⟩
  · -- Old states are reached as before, and the one it leads to by the transition.
    rcases hlast n' hn' with hlt | rfl
    · obtain ⟨ts', hp'⟩ := hr n' hlt
      exact ⟨ts', hp'.mono hsub⟩
    · have hin : (⟨n, s, n'⟩ : Transition) ∈ m₁.transitions ++ [⟨n, s, n'⟩] :=
        List.mem_append_right _ (List.mem_singleton_self _)
      exact ⟨_, .move (t := ⟨n, s, n'⟩) (hp.mono hsub) hin⟩
  · rw [goto_addTransition hok, if_pos ⟨rfl, rfl⟩]
    rfl
  · rw [goto_addTransition hok, if_neg hother, hgoto]

/-- A symbol behind a dot, on which there is no transition yet, gets one. -/
theorem expandOn_ok (h : Coherent g a full m) (hr : m.Reached) (hn : m.states[n]? = some items)
    (hnext : ∃ i ∈ items, i.next? = some s) (hfree : m.goto n s = none) :
    ∃ m', m.expandOn n items s = .ok m' ∧ Gains g a full m n s m' := by
  obtain ⟨target, htarget⟩ : ∃ target,
      target = closeKernel m.closures ((items.filter (·.next? = some s)).map Item.moved) := ⟨_, rfl⟩
  have hstep : ∀ i, i ∈ target ↔ i ∈ (itemNfa g a full).stepSet {j | j ∈ items} s := by
    intro i
    rw [htarget, h.closures_eq, mem_closeKernel_moved_iff]
  cases hknown : m.stateOf? target with
  | some known =>
    have hexpand : m.expandOn n items s = m.addTransition ⟨n, s, known⟩ := by
      simp only [expandOn, kernelOn_eq_ok, bind, Except.bind, ← htarget, hknown]
    obtain ⟨items', hitems', hsame⟩ := stateOf?_eq_some hknown
    rw [hexpand]
    exact h.exists_gains rfl (List.prefix_refl _) hr hn hnext hfree hitems'
      (fun i => (hsame i).trans (hstep i)) fun n' hn' => .inl hn'
  | none =>
    have hexpand : m.expandOn n items s =
        (m.addState target).addTransition ⟨n, s, m.states.length⟩ := by
      simp only [expandOn, kernelOn_eq_ok, bind, Except.bind, ← htarget, hknown]
    have hnodup : target.Nodup := by
      rw [htarget]
      exact nodup_closeKernel (nodup_kernel (h.nodup items (List.mem_of_getElem? hn)) s)
    rw [hexpand]
    refine (h.addState hnodup hknown).exists_gains (m := m) rfl (List.prefix_append _ _) hr hn
      hnext hfree List.getElem?_concat_length hstep fun n' hn' => ?_
    have hlen : n' < (m.states ++ [target]).length := hn'
    rw [List.length_append, List.length_singleton] at hlen
    omega

theorem pendingSymbols_ok (h : ∀ i ∈ items, ∀ s, i.next? = some s → s ∈ g.symbols) :
    ∃ pending, pendingSymbols g items = .ok pending ∧
      ∀ s, s ∈ pending ↔ ∃ i ∈ items, i.next? = some s := by
  induction items with
  | nil => exact ⟨[], rfl, by simp⟩
  | cons i items ih =>
    obtain ⟨pending, hpending, hmem⟩ := ih fun j hj => h j (List.mem_cons_of_mem i hj)
    rw [pendingSymbols]
    cases hnext : i.next? with
    | none => exact ⟨pending, hpending, fun s => by simp [hmem, hnext]⟩
    | some t =>
      have hclass : t ∈ g.terminals ∨ t ∈ g.nonterminals :=
        List.mem_append.mp (h i (List.mem_cons_self ..) t hnext)
      refine ⟨t :: pending, ?_, fun s => ?_⟩
      · dsimp only
        rw [if_pos hclass, hpending]
        rfl
      · simp [hmem, hnext, eq_comm]

/-- What holds of `m'` while the symbols of `rest`, which are among the pending ones of state `n`
of `m`, have no transition yet. -/
structure Halfway (g : Grammar) (a : Augmented) (full : Bool) (m : Automaton) (n : Nat)
    (pending rest : List Symbol) (m' : Automaton) : Prop where
  coherent : Coherent g a full m'
  reached : m'.Reached
  grows : m.states <+: m'.states
  others : ∀ n' s, n' ≠ n → m'.goto n' s = m.goto n' s
  nodup : rest.Nodup
  free : ∀ s ∈ rest, s ∈ pending ∧ m'.goto n s = none
  done : ∀ s ∈ pending, s ∈ rest ∨ (m'.goto n s).isSome

theorem Halfway.gains {pending rest : List Symbol} {m₁ m' : Automaton}
    (h : Halfway g a full m n pending (s :: rest) m₁) (hgains : Gains g a full m₁ n s m') :
    Halfway g a full m n pending rest m' := by
  obtain ⟨hs, hnodup⟩ := List.nodup_cons.mp h.nodup
  refine ⟨hgains.coherent, hgains.reached, h.grows.trans hgains.grows, fun n' s' hne => ?_, hnodup,
    fun s' hs' => ?_, fun s' hs' => ?_⟩
  · rw [hgains.others n' s' fun heq => hne heq.1, h.others n' s' hne]
  · obtain ⟨hp, hfree⟩ := h.free s' (List.mem_cons_of_mem s hs')
    have hne : s' ≠ s := fun heq => hs (heq ▸ hs')
    exact ⟨hp, by rw [hgains.others n s' fun heq => hne heq.2, hfree]⟩
  · by_cases heq : s' = s
    · exact .inr (heq ▸ hgains.isSome)
    · rw [hgains.others n s' fun h => heq h.2]
      exact (h.done s' hs').imp_left fun hin => (List.mem_cons.mp hin).resolve_left heq

/-- A state without transitions gets one for each symbol behind a dot, and no other state does. -/
theorem expand_ok (hg : g.Consistent) (ha : Augmented.ofGrammar g = .ok a)
    (h : Coherent g a full m) (hr : m.Reached) (hn : m.states[n]? = some items)
    (hfree : ∀ s, m.goto n s = none) :
    ∃ m', expand g m n items = .ok m' ∧ Coherent g a full m' ∧ m'.Reached ∧
      m.states <+: m'.states ∧ (∀ n' s, n' ≠ n → m'.goto n' s = m.goto n' s) ∧
      ∀ i ∈ items, ∀ s, i.next? = some s → (m'.goto n s).isSome := by
  have hsymbols : ∀ i ∈ items, ∀ s, i.next? = some s → s ∈ g.symbols := by
    intro i hi s hnext
    have hmem := Item.mem_rhs_of_next? hnext
    exact hg.mem_symbols_iff.mpr ((h.valid hr hn hi).occurs_of_mem_rhs hg ha hmem)
  obtain ⟨pending, hpending, hmem⟩ := pendingSymbols_ok hsymbols
  have hstart : Halfway g a full m n pending (g.symbols.filter (· ∈ pending)) m := by
    refine ⟨h, hr, List.prefix_refl _, fun _ _ _ => rfl, hg.nodup_symbols.filter _,
      fun s hs => ⟨of_decide_eq_true (List.mem_filter.mp hs).2, hfree s⟩, fun s hs => .inl ?_⟩
    obtain ⟨i, hi, hnext⟩ := (hmem s).mp hs
    exact List.mem_filter.mpr ⟨hsymbols i hi s hnext, decide_eq_true hs⟩
  have hstep : ∀ s rest m₁, Halfway g a full m n pending (s :: rest) m₁ →
      ∃ m', m₁.expandOn n items s = .ok m' ∧ Halfway g a full m n pending rest m' := by
    intro s rest m₁ h₁
    obtain ⟨hs, hfree₁⟩ := h₁.free s (List.mem_cons_self ..)
    obtain ⟨m', hok, hgains⟩ := expandOn_ok h₁.coherent h₁.reached
      (getElem?_of_isPrefix h₁.grows hn) ((hmem s).mp hs) hfree₁
    exact ⟨m', hok, h₁.gains hgains⟩
  obtain ⟨m', hok, h'⟩ := foldlM_total hstep hstart
  refine ⟨m', ?_, h'.coherent, h'.reached, h'.grows, h'.others, fun i hi s hnext => ?_⟩
  · rw [expand, hpending]
    exact hok
  · exact (h'.done s ((hmem s).mpr ⟨i, hi, hnext⟩)).resolve_left List.not_mem_nil

/-! ### The whole construction -/

/-- Whether a state has a transition for each symbol behind a dot. -/
def Expanded (m : Automaton) (n : Nat) : Prop :=
  ∀ items, m.states[n]? = some items → ∀ i ∈ items, ∀ s, i.next? = some s → (m.goto n s).isSome

/-- The states are different sets of items, so there are no more of them than there are sets. -/
theorem Coherent.length_states_le (h : Coherent g a full m) (hr : m.Reached) :
    m.states.length ≤ Nat.pow 2 (itemCount a) := by
  have hnodup : (m.states.map List.toFinset).Nodup := by
    rw [List.nodup_iff_getElem?_ne_getElem?]
    intro n n' hlt hlen heq
    rw [List.length_map] at hlen
    rw [List.getElem?_map, List.getElem?_map, List.getElem?_eq_getElem hlen,
      List.getElem?_eq_getElem (hlt.trans hlen), Option.map_some, Option.map_some,
      Option.some_inj] at heq
    -- Different states are different as sets.
    have hsame : ∀ i, i ∈ m.states[n] ↔ i ∈ m.states[n'] := fun i => by
      rw [← List.mem_toFinset, heq, List.mem_toFinset]
    have := h.apart n n' _ _ (List.getElem?_eq_getElem _) (List.getElem?_eq_getElem _) hsame
    omega
  have hsub : (m.states.map List.toFinset).toFinset ⊆ a.items.toFinset.powerset := by
    intro S hS
    obtain ⟨items, hitems, rfl⟩ := List.mem_map.mp (List.mem_toFinset.mp hS)
    obtain ⟨n, hlt, rfl⟩ := List.mem_iff_getElem.mp hitems
    rw [Finset.mem_powerset]
    intro i hi
    rw [List.mem_toFinset] at hi ⊢
    exact Augmented.mem_items_iff.mpr (h.valid hr (List.getElem?_eq_getElem hlt) hi)
  calc m.states.length
      = (m.states.map List.toFinset).toFinset.card := by
        rw [List.toFinset_card_of_nodup hnodup, List.length_map]
    _ ≤ a.items.toFinset.powerset.card := Finset.card_le_card hsub
    _ = 2 ^ a.items.toFinset.card := Finset.card_powerset _
    _ ≤ 2 ^ a.items.length := Nat.pow_le_pow_right (by omega) (List.toFinset_card_le _)
    _ = Nat.pow 2 (itemCount a) := by rw [a.length_items]; rfl

/-- What holds of an automaton while its states from number `n` on are to be expanded. -/
structure Expanding (g : Grammar) (a : Augmented) (full : Bool) (n : Nat) (m : Automaton) : Prop
    where
  coherent : Coherent g a full m
  reached : m.Reached
  le : n ≤ m.states.length
  done : ∀ k < n, m.Expanded k
  free : ∀ k s, n ≤ k → m.goto k s = none

/-- One state is expanded. -/
theorem Expanding.step (hg : g.Consistent) (ha : Augmented.ofGrammar g = .ok a)
    (h : Expanding g a full n m) (hn : m.states[n]? = some items) :
    ∃ m', expand g m n items = .ok m' ∧ Expanding g a full (n + 1) m' := by
  obtain ⟨m', hok, hcoherent, hreached, hbegin, hothers, hgoto⟩ :=
    expand_ok hg ha h.coherent h.reached hn fun s => h.free n s (Nat.le_refl n)
  have hlt := (List.getElem?_eq_some_iff.mp hn).1
  refine ⟨m', hok, hcoherent, hreached, Nat.le_trans hlt hbegin.length_le, ?_, fun k s hk => ?_⟩
  · -- State `n` has its transitions now, and the states before it keep theirs.
    intro k hk items' hitems' i hi s hnext
    have hk' : m.states[k]? = some items' := by
      rw [← hitems', List.getElem?_eq_getElem (by omega)]
      exact (getElem?_of_isPrefix hbegin (List.getElem?_eq_getElem _)).symm
    by_cases heq : k = n
    · subst heq
      obtain rfl := Option.some.inj (hn.symm.trans hk')
      exact hgoto i hi s hnext
    · rw [hothers k s heq]
      exact h.done k (by omega) items' hk' i hi s hnext
  · rw [hothers k s (by omega), h.free k s (by omega)]

theorem Expanding.expanded (h : Expanding g a full n m) (hn : m.states.length ≤ n) (k : Nat) :
    m.Expanded k := by
  intro items hk
  have hlt := (List.getElem?_eq_some_iff.mp hk).1
  exact h.done k (by omega) items hk

theorem expandFrom_ok (hg : g.Consistent) (ha : Augmented.ofGrammar g = .ok a) {steps : Nat}
    (h : Expanding g a full n m) (hbound : Nat.pow 2 (itemCount a) ≤ n + steps) :
    ∃ m', expandFrom g steps n m = .ok m' ∧ Coherent g a full m' ∧ m'.Reached ∧
      ∀ k, m'.Expanded k := by
  induction steps generalizing n m with
  | zero =>
    -- There were steps enough for every set of items.
    have hlength := h.coherent.length_states_le h.reached
    exact ⟨m, rfl, h.coherent, h.reached, h.expanded (by omega)⟩
  | succ steps ih =>
    rw [expandFrom]
    cases hn : m.states[n]? with
    | none =>
      exact ⟨m, rfl, h.coherent, h.reached, h.expanded (List.getElem?_eq_none_iff.mp hn)⟩
    | some items =>
      obtain ⟨m₁, hok, h₁⟩ := h.step hg ha hn
      obtain ⟨m', hok', hm'⟩ := ih h₁ (by omega)
      refine ⟨m', ?_, hm'⟩
      dsimp only
      rw [hok]
      exact hok'

/-- Automata that are built to the end. -/
structure Built (g : Grammar) (a : Augmented) (full : Bool) (m : Automaton) : Prop
    extends Coherent g a full m where
  reached : m.Reached
  expanded : ∀ n, m.Expanded n

/-- The state that the construction starts with. -/
theorem coherent_initial {initial : List Item} (hnodup : initial.Nodup)
    (hmem : ∀ i, i ∈ initial ↔ i ∈ (itemNfa g a full).eval []) :
    Coherent g a full ((⟨a, closureTable g a, [], [], none⟩ : Automaton).addState initial) := by
  have hzero : ∀ {n : Nat} {l : List Item}, [initial][n]? = some l → n = 0 ∧ l = initial := by
    intro n l hl
    rw [List.getElem?_singleton] at hl
    split at hl
    · next hn => exact ⟨hn, (Option.some.inj hl).symm⟩
    · cases hl
  refine ⟨rfl, rfl, fun l hl => ?_, fun n n' l l' hl hl' _ => ?_, ⟨initial, rfl, hmem⟩,
    fun t ht => absurd ht List.not_mem_nil, fun t ht => absurd ht List.not_mem_nil,
    fun n hn => ?_, fun l hl haccept => ?_⟩
  · exact List.mem_singleton.mp hl ▸ hnodup
  · rw [(hzero hl).1, (hzero hl').1]
  · have hn : (if a.acceptItem ∈ initial then some 0 else none) = some n := hn
    split at hn
    · next haccept =>
      obtain rfl := Option.some.inj hn
      exact ⟨initial, rfl, haccept⟩
    · cases hn
  · obtain rfl := List.mem_singleton.mp hl
    show (if a.acceptItem ∈ l then some 0 else none).isSome
    rw [if_pos haccept]
    rfl

/-- State 0 holds what is reached before a symbol is read. -/
theorem mem_initial_iff (full : Bool) {i : Item} :
    i ∈ (if full then a.leadingItems else closeKernel (closureTable g a) [a.startItem]) ↔
      i ∈ (itemNfa g a full).eval [] := by
  rw [εNFA.eval_nil]
  cases full with
  | true =>
    constructor
    · exact fun hi => εNFA.εClosure.base i hi
    · intro hi
      -- Every production is there already, so that none is missing behind a dot.
      induction hi with
      | base i hi => exact hi
      | step i j hij _ _ =>
        obtain ⟨_, _, _, hj, _⟩ := hij
        exact hj
  | false =>
    have hstart : (itemNfa g a false).start = {i | i ∈ [a.startItem]} := by
      ext i
      exact List.mem_singleton.symm
    rw [hstart]
    exact mem_closeKernel_iff false

/-- The automaton that the construction starts with. -/
def initial (g : Grammar) (a : Augmented) (full : Bool) : Automaton :=
  addState ⟨a, closureTable g a, [], [], none⟩
    (if full then a.leadingItems else closeKernel (closureTable g a) [a.startItem])

theorem expanding_initial (g : Grammar) (a : Augmented) (full : Bool) :
    Expanding g a full 0 (initial g a full) := by
  have hnodup : (if full then a.leadingItems
      else closeKernel (closureTable g a) [a.startItem]).Nodup := by
    split
    · exact a.nodup_leadingItems
    · exact nodup_closeKernel (List.nodup_singleton _)
  refine ⟨coherent_initial hnodup fun i => mem_initial_iff full, fun n hn => ?_, Nat.zero_le _,
    fun k hk => absurd hk (Nat.not_lt_zero k), fun k s _ => rfl⟩
  obtain rfl : n = 0 := Nat.lt_one_iff.mp hn
  exact ⟨[], .start⟩

theorem build_eq (g : Grammar) (a : Augmented) (full : Bool) :
    build g a full = expandFrom g (Nat.pow 2 (itemCount a)) 0 (initial g a full) := rfl

/-- Every grammar with productions has its automaton. -/
theorem build_ok (hg : g.Consistent) (ha : Augmented.ofGrammar g = .ok a) (full : Bool) :
    ∃ m, build g a full = .ok m ∧ Built g a full m := by
  obtain ⟨m, hok, h, hr, hexpanded⟩ :=
    expandFrom_ok hg ha (expanding_initial g a full) (Nat.le_add_left _ 0)
  exact ⟨m, hok, h, hr, hexpanded⟩

end Automaton

end ShiftReduce
