/-
Items as they are shown.

An item is shown as a row of words: the name of its rule, an arrow, and the symbols of the right
side with a mark at the dot. The words can be read back from the row, and where the mark is no
symbol of the grammar they tell the rule and the dot, so that the texts of its items tell a state.
A text of rules may hold the mark as a symbol, though. It is reserved, but the reader lets it
through, and then there are items that are shown alike.

* `Item.marked`, `Item.words`, `Item.text_eq` — the words of an item;
* `Augmented.Valid.isWord` — what they are for the items of a grammar that is read from a text;
* `Augmented.text_eq_iff` — items are shown alike just if they have the same words;
* `Augmented.tellsApart_iff` — texts tell rules and dots just if the mark is no terminal;
* `Automaton.ShowsStates` — the texts of its items tell a state;
* `itemTexts_tell` — what the texts of items tell for every text of rules.
-/
import ShiftReduce.Proofs.Automaton.Determinisation
import ShiftReduce.Proofs.Grammar.Layout

namespace ShiftReduce

open Text

/-! ### Words -/

namespace Item

variable {i j : Item}

/-- The right side with the mark at the dot. -/
def marked (i : Item) : List Symbol :=
  i.rule.rhs.take i.dot ++ Symbol.dot :: i.rule.rhs.drop i.dot

/-- The words of an item. -/
def words (i : Item) : List String := i.rule.name :: "->" :: i.marked

theorem text_eq (i : Item) : i.text = unwords i.words :=
  unwords_arrow i.rule.name (List.append_ne_nil_of_right_ne_nil _ (List.cons_ne_nil _ _))

theorem mem_marked_iff {s : Symbol} : s ∈ i.marked ↔ s = Symbol.dot ∨ s ∈ i.rule.rhs := by
  conv_rhs => rw [← List.take_append_drop i.dot i.rule.rhs]
  rw [marked, List.mem_append, List.mem_cons, List.mem_append, or_left_comm]

theorem words_eq_iff : i.words = j.words ↔ i.rule.name = j.rule.name ∧ i.marked = j.marked := by
  rw [words, words, List.cons.injEq, List.cons.injEq, and_iff_right rfl]

/-- A mark that is no symbol of the right side is the only one, and stands at the dot. -/
theorem eq_of_words_eq (hi : i.dot ≤ i.rule.rhs.length) (hj : j.dot ≤ j.rule.rhs.length)
    (hmark : Symbol.dot ∉ i.rule.rhs) (h : i.words = j.words) :
    i.rule = j.rule ∧ i.dot = j.dot := by
  obtain ⟨hname, hmarked⟩ := words_eq_iff.mp h
  have htakes : Symbol.dot ∉ i.rule.rhs.take i.dot := fun hin => hmark (List.mem_of_mem_take hin)
  have hdrops : Symbol.dot ∉ i.rule.rhs.drop i.dot := fun hin => hmark (List.mem_of_mem_drop hin)
  obtain ⟨hbefore, _, hbehind⟩ := (List.append_cons_inj_of_notMem htakes hdrops).mp hmarked
  have hrhs : i.rule.rhs = j.rule.rhs := by
    rw [← List.take_append_drop i.dot i.rule.rhs, hbefore, hbehind, List.take_append_drop]
  have hdot : i.dot = j.dot := by
    have hlength := congrArg List.length hbefore
    rwa [List.length_take_of_le hi, List.length_take_of_le hj] at hlength
  refine ⟨?_, hdot⟩
  obtain ⟨_, _, name, rhs⟩ := i
  obtain ⟨_, _, name', rhs'⟩ := j
  obtain rfl : name = name' := hname
  obtain rfl : rhs = rhs' := hrhs
  rfl

end Item

/-! ### Items of a grammar -/

namespace Augmented

variable {g : Grammar} {a : Augmented} {i j : Item}

theorem isWord_start (hg : g.Consistent) (ha : ofGrammar g = .ok a) :
    IsWord a.goal ∧ IsWord a.start := by
  have hgoal := hg.start_mem_nonterminals (ofGrammar_eq_ok_iff.mp ha).1
  have hword := (isPlain_of_isNonterminal (hg.mem_nonterminals_iff.mp hgoal).1).isWord
  refine ⟨hword, ?_, fun c hc => ?_⟩
  · rw [start, String.toList_append]
    exact List.append_ne_nil_of_left_ne_nil hword.1 _
  · rw [start, String.toList_append, List.mem_append] at hc
    rcases hc with hc | hc
    · exact hword.2 c hc
    · obtain rfl := List.mem_singleton.mp hc
      decide

theorem isWord_of_mem_allRules (hg : g.Consistent) (hreadable : g.Readable)
    (ha : ofGrammar g = .ok a) {r : Rule} (hr : r ∈ a.allRules) :
    IsWord r.name ∧ ∀ s ∈ r.rhs, IsWord s := by
  rcases (mem_allRules_iff ha).mp hr with rfl | ⟨p, hp, rfl⟩
  · obtain ⟨hgoal, hstart⟩ := isWord_start hg ha
    exact ⟨hstart, List.forall_mem_singleton.mpr hgoal⟩
  · have hrule := hreadable p hp
    exact ⟨(isPlain_of_isNonterminal hrule.name_isNonterminal).isWord,
      fun s hs => (hrule.rhs_isReadable s hs).isWord⟩

theorem Valid.isWord (hg : g.Consistent) (hreadable : g.Readable) (ha : ofGrammar g = .ok a)
    (hi : a.Valid i) : ∀ w ∈ i.words, IsWord w := by
  obtain ⟨hname, hrhs⟩ := isWord_of_mem_allRules hg hreadable ha (List.mem_of_getElem? hi.rule_eq)
  intro w hw
  rw [Item.words, List.mem_cons, List.mem_cons, Item.mem_marked_iff] at hw
  rcases hw with rfl | rfl | rfl | hw
  · exact hname
  · decide
  · decide
  · exact hrhs w hw

/-- Items are shown alike just if they have the same words. -/
theorem text_eq_iff (hg : g.Consistent) (hreadable : g.Readable) (ha : ofGrammar g = .ok a)
    (hi : a.Valid i) (hj : a.Valid j) :
    i.text = j.text ↔ i.rule.name = j.rule.name ∧ i.marked = j.marked := by
  rw [← Item.words_eq_iff, Item.text_eq, Item.text_eq]
  constructor
  · intro h
    rw [← wordsOf_unwords (hi.isWord hg hreadable ha), h,
      wordsOf_unwords (hj.isWord hg hreadable ha)]
  · exact congrArg unwords

/-- The mark is a terminal if it stands on a right side. -/
theorem dot_mem_terminals_iff (hg : g.Consistent) (ha : ofGrammar g = .ok a) :
    Symbol.dot ∈ g.terminals ↔ ∃ r ∈ a.allRules, Symbol.dot ∈ r.rhs := by
  constructor
  · intro h
    obtain ⟨p, hp, hrhs⟩ := hg.exists_mem_rhs h
    exact ⟨p.toRule, (mem_allRules_iff ha).mpr (.inr ⟨p, hp, rfl⟩), hrhs⟩
  · rintro ⟨r, hr, hrhs⟩
    rcases (mem_allRules_iff ha).mp hr with rfl | ⟨p, hp, rfl⟩
    · have hgoal := hg.start_mem_nonterminals (ofGrammar_eq_ok_iff.mp ha).1
      rw [← List.mem_singleton.mp hrhs] at hgoal
      exact absurd (hg.mem_nonterminals_iff.mp hgoal).1 (by decide)
    · exact hg.mem_terminals_iff.mpr ⟨by decide, p, hp, .inr hrhs⟩

/-- Items that are shown alike are of one rule and have the dot in the same place. -/
def TellsApart (a : Augmented) : Prop :=
  ∀ i j, a.Valid i → a.Valid j → i.text = j.text → i.rule = j.rule ∧ i.dot = j.dot

/-- Texts of items tell rules and dots just if the mark is no terminal. -/
theorem tellsApart_iff (hg : g.Consistent) (hreadable : g.Readable) (ha : ofGrammar g = .ok a) :
    a.TellsApart ↔ Symbol.dot ∉ g.terminals := by
  rw [dot_mem_terminals_iff hg ha]
  constructor
  · rintro h ⟨r, hr, hmark⟩
    obtain ⟨n, hn⟩ := List.getElem?_of_mem hr
    obtain ⟨l, rest, hrhs⟩ := List.append_of_mem hmark
    -- With the dot on either side of the mark there are two marks in a row.
    have hi : a.Valid ⟨n, l.length, r⟩ := ⟨hn, by simp [hrhs]⟩
    have hj : a.Valid ⟨n, l.length + 1, r⟩ := ⟨hn, by simp [hrhs]⟩
    have hleft : Item.marked ⟨n, l.length, r⟩ = l ++ Symbol.dot :: Symbol.dot :: rest := by
      simp [Item.marked, hrhs]
    have hright : Item.marked ⟨n, l.length + 1, r⟩ = l ++ Symbol.dot :: Symbol.dot :: rest := by
      have hrhs' : r.rhs = (l ++ [Symbol.dot]) ++ rest := by simp [hrhs]
      have hlength : (l ++ [Symbol.dot]).length = l.length + 1 := by simp
      rw [Item.marked, hrhs', List.take_left' hlength, List.drop_left' hlength, List.append_assoc]
      rfl
    have halike := (text_eq_iff hg hreadable ha hi hj).mpr ⟨rfl, hleft.trans hright.symm⟩
    have hdot := (h _ _ hi hj halike).2
    exact absurd hdot (Nat.succ_ne_self l.length).symm
  · intro hnone i j hi hj h
    refine Item.eq_of_words_eq hi.dot_le hj.dot_le
      (fun hmark => hnone ⟨i.rule, List.mem_of_getElem? hi.rule_eq, hmark⟩) ?_
    exact Item.words_eq_iff.mpr ((text_eq_iff hg hreadable ha hi hj).mp h)

end Augmented

/-! ### States -/

/-- An item whose name is not in the grammar is of the start production. -/
theorem Augmented.Valid.production_eq_zero {g : Grammar} {a : Augmented} {i : Item}
    (hg : g.Consistent) (ha : ofGrammar g = .ok a) (hi : a.Valid i)
    (hname : i.rule.name ∉ g.nonterminals) : i.production = 0 := by
  by_contra hzero
  obtain ⟨_, p, _, hp, hrule⟩ := hi.exists_production ha hzero
  exact hname (hrule ▸ hg.name_mem_nonterminals (List.mem_of_getElem? hp))

namespace Automaton

variable {g : Grammar} {a : Augmented} {full : Bool} {m : Automaton} {n : Nat} {items : List Item}

/-- The texts of its items tell a state: it holds all valid items with these texts, and no other
state has the same texts. -/
structure ShowsStates (a : Augmented) (m : Automaton) : Prop where
  mem_iff : ∀ (n : Nat) items texts, m.states[n]? = some items → m.stateTexts[n]? = some texts →
    ∀ i, a.Valid i → (i.text ∈ texts ↔ i ∈ items)
  eq_of_texts : ∀ (n n' : Nat) texts texts', m.stateTexts[n]? = some texts →
    m.stateTexts[n']? = some texts' → (∀ t, t ∈ texts ↔ t ∈ texts') → n = n'

theorem Determinises.exists_eval (h : m.Determinises g a full) (hn : m.states[n]? = some items) :
    ∃ w, ∀ i, i ∈ items ↔ i ∈ (itemNfa g a full).eval w := by
  obtain ⟨ts, hp⟩ := h.reachable n (List.getElem?_eq_some_iff.mp hn).1
  obtain ⟨items', hitems', hmem⟩ := h.path_items ts n hp
  obtain rfl := Option.some.inj (hn.symm.trans hitems')
  exact ⟨spelling ts, hmem⟩

/-- With an item a state holds all items of equal rules with the dot in the same place. -/
theorem Determinises.mem_of_rule_eq (h : m.Determinises g a full) (hg : g.Consistent)
    (ha : Augmented.ofGrammar g = .ok a) (hn : m.states[n]? = some items) {i j : Item}
    (hi : a.Valid i) (hj : j ∈ items) (hrule : i.rule = j.rule) (hdot : i.dot = j.dot) :
    i ∈ items := by
  obtain ⟨w, hmem⟩ := h.exists_eval hn
  have hreached := (hmem j).mp hj
  by_cases hname : j.rule.name ∈ g.nonterminals
  · exact (hmem i).mpr (mem_eval_of_rule_eq hg hreached hname hi hrule hdot)
  -- There is only one production with the new start symbol.
  · have hzero : i.production = j.production :=
      (hi.production_eq_zero hg ha (hrule ▸ hname)).trans
        ((valid_of_mem_eval hreached).production_eq_zero hg ha hname).symm
    obtain ⟨production, dot, rule⟩ := i
    obtain rfl : production = j.production := hzero
    obtain rfl : dot = j.dot := hdot
    obtain rfl : rule = j.rule := hrule
    exact hj

theorem Determinises.showsStates (h : m.Determinises g a full) (hg : g.Consistent)
    (ha : Augmented.ofGrammar g = .ok a) (htell : a.TellsApart) : m.ShowsStates a := by
  have hvalid : ∀ {n : Nat} {items}, m.states[n]? = some items → ∀ i ∈ items, a.Valid i := by
    intro n items hn i hi
    obtain ⟨w, hmem⟩ := h.exists_eval hn
    exact valid_of_mem_eval ((hmem i).mp hi)
  have hshown : ∀ {n : Nat} {items}, m.states[n]? = some items → ∀ i, a.Valid i →
      (i.text ∈ items.map Item.text ↔ i ∈ items) := by
    intro n items hn i hi
    constructor
    · intro htext
      obtain ⟨j, hj, halike⟩ := List.mem_map.mp htext
      obtain ⟨hrule, hdot⟩ := htell i j hi (hvalid hn j hj) halike.symm
      exact h.mem_of_rule_eq hg ha hn hi hj hrule hdot
    · exact List.mem_map_of_mem
  have hstate : ∀ {n : Nat} {texts}, m.stateTexts[n]? = some texts →
      ∃ items, m.states[n]? = some items ∧ items.map Item.text = texts := by
    intro n texts hn
    rw [stateTexts, List.getElem?_map] at hn
    exact Option.map_eq_some_iff.mp hn
  refine ⟨fun n items texts hn htexts => ?_, fun n n' texts texts' htexts htexts' hsame => ?_⟩
  · obtain ⟨items', hitems', rfl⟩ := hstate htexts
    obtain rfl := Option.some.inj (hn.symm.trans hitems')
    exact hshown hn
  · obtain ⟨items, hn, rfl⟩ := hstate htexts
    obtain ⟨items', hn', rfl⟩ := hstate htexts'
    refine h.states_differ n n' items items' hn hn' fun i => ⟨fun hi => ?_, fun hi => ?_⟩
    · have hi' := hvalid hn i hi
      exact (hshown hn' i hi').mp ((hsame i.text).mp ((hshown hn i hi').mpr hi))
    · have hi' := hvalid hn' i hi
      exact (hshown hn i hi').mp ((hsame i.text).mpr ((hshown hn' i hi').mpr hi))

end Automaton

/-! ### Texts of rules -/

/-- For the items of a grammar that is read from a text, being shown alike is having the same name
and the same symbols with the mark among them. This tells the rule and the dot just if the mark is
no symbol of the text, and then the texts of its items tell a state. -/
theorem itemTexts_tell (text : String) (a : Augmented)
    (ha : Augmented.ofGrammar (Grammar.parse text).1 = .ok a) :
    (∀ i j, a.Valid i → a.Valid j →
        (i.text = j.text ↔ i.rule.name = j.rule.name ∧ i.marked = j.marked)) ∧
      (a.TellsApart ↔ Symbol.dot ∉ (Grammar.parse text).1.terminals) ∧
      (Symbol.dot ∉ (Grammar.parse text).1.terminals → ∀ full, ∃ m,
        Automaton.build (Grammar.parse text).1 a full = .ok m ∧ m.ShowsStates a) := by
  have hg := Grammar.parse_consistent text
  have hreadable := Grammar.parse_readable text
  refine ⟨fun i j hi hj => Augmented.text_eq_iff hg hreadable ha hi hj,
    Augmented.tellsApart_iff hg hreadable ha, fun hnone full => ?_⟩
  obtain ⟨m, hm, hbuilt⟩ := Automaton.build_ok hg ha full
  have htell := (Augmented.tellsApart_iff hg hreadable ha).mpr hnone
  exact ⟨m, hm, (hbuilt.determinises hg).showsStates hg ha htell⟩

/-- Sums, with a rule that is there twice. -/
theorem itemTexts_tell_sums :
    ∃ a, Augmented.ofGrammar (Grammar.parse "E -> E + a | a E -> a").1 = .ok a ∧
      Symbol.dot ∉ (Grammar.parse "E -> E + a | a E -> a").1.terminals ∧ a.TellsApart ∧
      ∃ m, Automaton.build (Grammar.parse "E -> E + a | a E -> a").1 a false = .ok m ∧
        m.ShowsStates a := by
  have ha : Augmented.ofGrammar (Grammar.parse "E -> E + a | a E -> a").1 =
      .ok ⟨"E", [⟨"E", ["E", "+", "a"]⟩, ⟨"E", ["a"]⟩, ⟨"E", ["a"]⟩]⟩ := by
    decide +kernel
  have hnone : Symbol.dot ∉ (Grammar.parse "E -> E + a | a E -> a").1.terminals := by
    decide +kernel
  obtain ⟨_, htell, hstates⟩ := itemTexts_tell _ _ ha
  exact ⟨_, ha, hnone, htell.mpr hnone, hstates hnone false⟩

/-- The mark as a symbol of a rule: with the dot on either side of it the rule is shown alike. -/
theorem itemTexts_collide :
    ∃ a, Augmented.ofGrammar (Grammar.parse "S -> a S -> •").1 = .ok a ∧
      ∃ i j, a.Valid i ∧ a.Valid j ∧ i.dot ≠ j.dot ∧ i.text = "S -> • •" ∧ j.text = "S -> • •" := by
  have ha : Augmented.ofGrammar (Grammar.parse "S -> a S -> •").1 =
      .ok ⟨"S", [⟨"S", ["a"]⟩, ⟨"S", ["•"]⟩]⟩ := by
    decide +kernel
  exact ⟨_, ha, ⟨2, 0, ⟨"S", ["•"]⟩⟩, ⟨2, 1, ⟨"S", ["•"]⟩⟩, ⟨rfl, by decide⟩, ⟨rfl, by decide⟩,
    by decide, by decide, by decide⟩

end ShiftReduce
