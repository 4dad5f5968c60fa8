/-
What the parts of a grammar say of its productions.

A grammar that grows by one production at a time keeps, beside its productions, maps from names,
rules and symbols. They never disagree with the productions.

* `Grammar.usesOf` — the numbers of the productions that use a symbol;
* `Grammar.Consistent` — every map says what the productions say;
* `Grammar.Consistent.push` — one more production keeps this;
* `Grammar.Consistent.mem_terminals_iff`, `Grammar.Consistent.mem_nonterminals_iff` — the two
  classes, read off the productions;
* `Grammar.Consistent.mem_symbols_iff` — every symbol of a production has a class;
* `Grammar.forall_of_derives` — what right sides inherit holds of all that is derived;
* `Grammar.occurs_of_derives` — so only symbols that occur are derived from such symbols;
* `Grammar.addRules`, `Grammar.addRules_induction` — the grammar that rules lead to when they are
  added one after another, and what each of them keeps.
-/
import ShiftReduce.Grammar.Derivation
import ShiftReduce.Grammar.Diagnostics
import ShiftReduce.Proofs.Outcome
import Mathlib.Data.List.Basic
import Mathlib.Data.List.Induction

namespace ShiftReduce.Grammar

/-- The symbols of one class, with their uses. -/
def symbolsOf (g : Grammar) (nonterminal : Bool) : Assoc Symbol (List Nat) :=
  if nonterminal then g.nonterminals else g.terminals

/-- The numbers of the productions that use a symbol on the right side, once for each use. -/
def usesOf (g : Grammar) (s : Symbol) : List Nat :=
  g.productions.flatMap fun p => List.replicate (p.rhs.count s) p.number

/-- Symbols that are the name of a production or stand on its right side. -/
def Occurs (g : Grammar) (s : Symbol) : Prop := ∃ p ∈ g.productions, s = p.name ∨ s ∈ p.rhs

instance (g : Grammar) (s : Symbol) : Decidable (g.Occurs s) :=
  inferInstanceAs (Decidable (∃ p ∈ g.productions, s = p.name ∨ s ∈ p.rhs))

/-! ### Noting uses -/

/-- Noting uses changes only what is known of the symbols. -/
theorem noteUses_eq (number : Nat) (syms : List Symbol) (g : Grammar) :
    syms.foldl (noteUse number) g =
      { g with
        terminals := (syms.foldl (noteUse number) g).terminals
        nonterminals := (syms.foldl (noteUse number) g).nonterminals } := by
  induction syms generalizing g with
  | nil => rfl
  | cons s syms ih =>
    rw [List.foldl_cons, ih]
    unfold noteUse
    split <;> rfl

theorem find?_symbolsOf_noteUse (number : Nat) (g : Grammar) (s : Symbol) (b : Bool) (t : Symbol) :
    ((noteUse number g s).symbolsOf b).find? t =
      if t.isNonterminal = b ∧ t = s then some (((g.symbolsOf b).find? t).getD [] ++ [number])
      else (g.symbolsOf b).find? t := by
  unfold noteUse symbolsOf
  cases hs : s.isNonterminal <;> cases b <;>
    simp only [Bool.false_eq_true, if_true, if_false, Assoc.append, Assoc.find?_alter] <;>
    by_cases ht : t = s <;> simp [ht, hs]

/-- Each use is noted in the class of its symbol. -/
theorem find?_symbolsOf_noteUses (number : Nat) (syms : List Symbol) (g : Grammar) (b : Bool)
    (t : Symbol) :
    ((syms.foldl (noteUse number) g).symbolsOf b).find? t =
      if t.isNonterminal = b ∧ t ∈ syms then
        some (((g.symbolsOf b).find? t).getD [] ++ List.replicate (syms.count t) number)
      else (g.symbolsOf b).find? t := by
  induction syms generalizing g with
  | nil => simp
  | cons s syms ih =>
    rw [List.foldl_cons, ih, find?_symbolsOf_noteUse]
    by_cases hb : t.isNonterminal = b
    · by_cases hs : t = s
      · subst hs
        by_cases ht : t ∈ syms
        · simp [hb, ht, List.replicate_succ]
        · simp [hb, ht, List.count_eq_zero_of_not_mem ht]
      · have hcount : (s :: syms).count t = syms.count t :=
          List.count_cons_of_ne fun h => hs h.symm
        simp [hb, hs, hcount]
    · simp [hb]

/-- The production of a number is at the position that the number says. -/
theorem productionAt_of_getElem? {g : Grammar} {n : Nat} {p : Production}
    (h : g.productions[n]? = some p) : g.productionAt n = .ok p := by
  have hpos : ¬(n : Int) < 0 := by omega
  rw [productionAt, atPosition, if_neg hpos, if_neg hpos, Int.toNat_natCast, h]

theorem getElem?_of_productionAt {g : Grammar} {n : Nat} {p : Production}
    (h : g.productionAt n = .ok p) : g.productions[n]? = some p := by
  have hpos : ¬(n : Int) < 0 := by omega
  rw [productionAt, atPosition, if_neg hpos, if_neg hpos, Int.toNat_natCast] at h
  split at h
  · next hat => exact hat.trans (congrArg some (Except.ok.inj h))
  · cases h

/-! ### Consistency -/

/-- Every part of a grammar says what its productions say. -/
structure Consistent (g : Grammar) : Prop where
  /-- A production's number is its place. -/
  number_eq : ∀ {i : Nat} {p : Production}, g.productions[i]? = some p → p.number = i
  name_isNonterminal : ∀ p ∈ g.productions, p.name.isNonterminal = true
  /-- The productions of a name are those that have it. -/
  productionsOf_eq : ∀ n, g.productionsOf n = g.productions.filter fun p => p.name = n
  mem_byName_iff : ∀ n, n ∈ g.byName ↔ ∃ p ∈ g.productions, p.name = n
  /-- The number of a rule is the place of its first production. -/
  find?_byRule : ∀ r, g.byRule.find? r = g.rules.idxOf? r
  /-- A class holds the symbols of its kind that occur, with their uses. -/
  find?_symbolsOf : ∀ b s, (g.symbolsOf b).find? s =
    if s.isNonterminal = b ∧ g.Occurs s then some (g.usesOf s) else none
  /-- The start symbol is the name of the first production. -/
  start_eq : g.start = g.productions.head?.map fun p => p.name

/-! ### One more production -/

section Push

variable (g : Grammar) (r : Rule)

/-- The production comes last, and nothing that was computed changes. -/
theorem push_eq :
    g.push r =
      { productions := g.productions ++ [⟨r, g.nextNumber⟩]
        byName := g.byName.append r.name ⟨r, g.nextNumber⟩
        byRule := g.byRule.alter r fun old => old.getD g.nextNumber
        terminals := (g.push r).terminals
        nonterminals := (g.push r).nonterminals
        first := g.first
        follow := g.follow
        start := some (g.start.getD r.name) } :=
  congrArg
    (fun noted : Grammar =>
      { noted with
        productions := noted.productions ++ [(⟨r, g.nextNumber⟩ : Production)]
        byName := noted.byName.append r.name (⟨r, g.nextNumber⟩ : Production)
        byRule := noted.byRule.alter r fun old => old.getD g.nextNumber
        start := some (noted.start.getD r.name) })
    (noteUses_eq g.nextNumber r.rhs { g with nonterminals := g.nonterminals.touch r.name })

theorem productions_push : (g.push r).productions = g.productions ++ [⟨r, g.nextNumber⟩] :=
  congrArg productions (push_eq g r)

theorem rules_push : (g.push r).rules = g.rules ++ [r] := by
  rw [rules, productions_push, List.map_append]
  rfl

theorem usesOf_push (s : Symbol) :
    (g.push r).usesOf s = g.usesOf s ++ List.replicate (r.rhs.count s) g.nextNumber := by
  rw [usesOf, productions_push, List.flatMap_append]
  simp [usesOf]

/-- A symbol's uses on the new right side come last. -/
theorem find?_symbolsOf_push (b : Bool) (t : Symbol) :
    ((g.push r).symbolsOf b).find? t =
      if t.isNonterminal = b ∧ t ∈ r.rhs then
        some (((g.symbolsOf b).find? t).getD [] ++
          List.replicate (r.rhs.count t) g.nextNumber)
      else if b = true ∧ t = r.name then some (((g.symbolsOf b).find? t).getD [])
      else (g.symbolsOf b).find? t := by
  have hpush : (g.push r).symbolsOf b =
      (r.rhs.foldl (noteUse g.nextNumber)
        { g with nonterminals := g.nonterminals.touch r.name }).symbolsOf b := rfl
  rw [hpush, find?_symbolsOf_noteUses]
  cases b with
  | false => simp [symbolsOf]
  | true =>
    by_cases ht : t = r.name <;> simp [symbolsOf, Assoc.touch, Assoc.find?_alter, ht]

end Push

namespace Consistent

theorem empty : Consistent ∅ where
  number_eq h := by cases h
  name_isNonterminal p hp := by cases hp
  productionsOf_eq _ := rfl
  mem_byName_iff n := by
    constructor
    · intro h
      cases h
    · rintro ⟨p, hp, _⟩
      cases hp
  find?_byRule _ := rfl
  find?_symbolsOf b s := by
    rw [if_neg]
    · cases b <;> rfl
    · rintro ⟨_, p, hp, _⟩
      cases hp
  start_eq := rfl

variable {g : Grammar}

theorem usesOf_eq_nil {s : Symbol} (h : ¬g.Occurs s) : g.usesOf s = [] := by
  rw [usesOf, List.flatMap_eq_nil_iff]
  intro p hp
  rw [List.count_eq_zero_of_not_mem fun hs => h ⟨p, hp, .inr hs⟩]
  rfl

theorem occurs_push_iff {r : Rule} {s : Symbol} :
    (g.push r).Occurs s ↔ g.Occurs s ∨ s = r.name ∨ s ∈ r.rhs := by
  simp only [Occurs, productions_push, List.mem_append, List.mem_singleton, or_and_right, exists_or,
    exists_eq_left]

/-- The first place of a member in a list with one more member. -/
theorem idxOf?_concat {α : Type} [DecidableEq α] (l : List α) (a b : α) :
    (l ++ [b]).idxOf? a = if a = b then some ((l.idxOf? b).getD l.length) else l.idxOf? a := by
  unfold List.idxOf?
  rw [List.findIdx?_append]
  by_cases h : a = b
  · subst h
    cases l.findIdx? (· == a) <;> simp
  · have h' : b ≠ a := fun e => h e.symm
    simp [h, h']

theorem push (h : Consistent g) {r : Rule} (hr : r.name.isNonterminal = true) :
    Consistent (g.push r) where
  number_eq {i p} hp := by
    rw [productions_push, List.getElem?_append] at hp
    split at hp
    · exact h.number_eq hp
    · next hi =>
      obtain ⟨hlt, rfl⟩ := List.getElem?_eq_some_iff.mp hp
      have hi' : i = g.productions.length := by
        simp only [List.length_singleton] at hlt
        omega
      simp [hi', nextNumber]
  name_isNonterminal p hp := by
    rw [productions_push, List.mem_append, List.mem_singleton] at hp
    rcases hp with hp | rfl
    · exact h.name_isNonterminal p hp
    · exact hr
  productionsOf_eq n := by
    have hold := h.productionsOf_eq n
    unfold productionsOf at hold ⊢
    rw [congrArg byName (push_eq g r), productions_push, List.filter_append, ← hold, Assoc.append,
      Assoc.find?_alter]
    by_cases hn : n = r.name
    · simp [hn]
    · have hn' : r.name ≠ n := fun e => hn e.symm
      simp [hn, hn']
  mem_byName_iff n := by
    rw [congrArg byName (push_eq g r), productions_push, Assoc.append, Assoc.mem_alter,
      h.mem_byName_iff]
    simp only [List.mem_append, List.mem_singleton, or_and_right, exists_or, exists_eq_left]
    rw [or_comm, eq_comm]
  find?_byRule s := by
    have hlength : g.rules.length = g.nextNumber := List.length_map ..
    rw [congrArg byRule (push_eq g r), rules_push, Assoc.find?_alter, h.find?_byRule,
      h.find?_byRule, idxOf?_concat, hlength]
  find?_symbolsOf b s := by
    rw [find?_symbolsOf_push, h.find?_symbolsOf, usesOf_push]
    simp only [occurs_push_iff]
    -- A symbol of the class is on the new right side, or is the new name, or was there before.
    by_cases hb : s.isNonterminal = b
    · by_cases hs : s ∈ r.rhs
      · by_cases hold : g.Occurs s
        · simp [hb, hs, hold]
        · simp [hb, hs, hold, usesOf_eq_nil hold]
      · have hcount : r.rhs.count s = 0 := List.count_eq_zero_of_not_mem hs
        by_cases hname : s = r.name
        · have hb' : b = true := by rw [← hb, hname, hr]
          by_cases hold : g.Occurs r.name
          · simp [hname, hr, hold, hb', hname ▸ hs, hname ▸ hcount]
          · simp [hname, hr, hold, hb', hname ▸ hs, hname ▸ hcount, usesOf_eq_nil hold]
        · simp [hb, hs, hname, hcount]
    · have hname : ¬(b = true ∧ s = r.name) := by
        rintro ⟨rfl, rfl⟩
        exact hb hr
      simp [hb, hname]
  start_eq := by
    rw [congrArg start (push_eq g r), productions_push, h.start_eq]
    cases g.productions <;> rfl

/-- No two productions have the same number. -/
theorem eq_of_number_eq (h : Consistent g) {p q : Production} (hp : p ∈ g.productions)
    (hq : q ∈ g.productions) (heq : p.number = q.number) : p = q := by
  obtain ⟨i, hi⟩ := List.getElem?_of_mem hp
  obtain ⟨j, hj⟩ := List.getElem?_of_mem hq
  rw [h.number_eq hi, h.number_eq hj] at heq
  exact Option.some.inj (hi.symm.trans (heq ▸ hj))

/-- The productions are the rules with their places. -/
theorem productions_eq (h : Consistent g) :
    g.productions = g.rules.mapIdx fun number r => ⟨r, number⟩ := by
  refine List.ext_getElem? fun i => ?_
  rw [List.getElem?_mapIdx, rules, List.getElem?_map]
  cases hp : g.productions[i]? with
  | none => rfl
  | some p =>
    obtain rfl := h.number_eq hp
    rfl

/-! ### The two classes -/

theorem mem_symbolsOf_iff (h : Consistent g) {b : Bool} {s : Symbol} :
    s ∈ g.symbolsOf b ↔ s.isNonterminal = b ∧ g.Occurs s := by
  rw [← Assoc.find?_isSome_iff, h.find?_symbolsOf]
  split
  · next hs => simp [hs]
  · next hs => simp [hs]

theorem mem_terminals_iff (h : Consistent g) {t : Symbol} :
    t ∈ g.terminals ↔ t.isNonterminal = false ∧ g.Occurs t := h.mem_symbolsOf_iff (b := false)

theorem mem_nonterminals_iff (h : Consistent g) {n : Symbol} :
    n ∈ g.nonterminals ↔ n.isNonterminal = true ∧ g.Occurs n := h.mem_symbolsOf_iff (b := true)

theorem mem_terminals_or_mem_nonterminals (h : Consistent g) {s : Symbol} (hs : g.Occurs s) :
    s ∈ g.terminals ∨ s ∈ g.nonterminals := by
  rw [h.mem_terminals_iff, h.mem_nonterminals_iff]
  cases s.isNonterminal
  · exact .inl ⟨rfl, hs⟩
  · exact .inr ⟨rfl, hs⟩

theorem not_mem_nonterminals (h : Consistent g) {t : Symbol} (ht : t ∈ g.terminals) :
    t ∉ g.nonterminals := by
  intro hn
  rw [h.mem_terminals_iff] at ht
  rw [h.mem_nonterminals_iff, ht.1] at hn
  exact Bool.false_ne_true hn.1

theorem nodup_symbols (h : Consistent g) : g.symbols.Nodup := by
  refine List.nodup_append.mpr ⟨g.terminals.nodup, g.nonterminals.nodup, ?_⟩
  rintro t ht s hs rfl
  exact h.not_mem_nonterminals ht hs

theorem name_mem_nonterminals (h : Consistent g) {p : Production} (hp : p ∈ g.productions) :
    p.name ∈ g.nonterminals :=
  h.mem_nonterminals_iff.mpr ⟨h.name_isNonterminal p hp, p, hp, .inl rfl⟩

/-- A terminal is no name, so it stands on a right side. -/
theorem exists_mem_rhs (h : Consistent g) {t : Symbol} (ht : t ∈ g.terminals) :
    ∃ p ∈ g.productions, t ∈ p.rhs := by
  obtain ⟨hclass, p, hp, hname | hrhs⟩ := h.mem_terminals_iff.mp ht
  · rw [hname, h.name_isNonterminal p hp] at hclass
    cases hclass
  · exact ⟨p, hp, hrhs⟩

theorem start_mem_nonterminals (h : Consistent g) {s : Symbol} (hs : g.start = some s) :
    s ∈ g.nonterminals := by
  rw [h.start_eq, Option.map_eq_some_iff] at hs
  obtain ⟨p, hp, rfl⟩ := hs
  exact h.name_mem_nonterminals (List.mem_of_head? hp)

theorem exists_start (h : Consistent g) {p : Production} (hp : p ∈ g.productions) :
    ∃ s, g.start = some s := by
  rw [h.start_eq]
  cases hlist : g.productions with
  | nil => exact absurd (hlist ▸ hp) List.not_mem_nil
  | cons q _ => exact ⟨q.name, rfl⟩

theorem exists_start_of_ne_nil (h : Consistent g) (hne : g.productions ≠ []) :
    ∃ s, g.start = some s := by
  obtain ⟨p, hp⟩ := List.exists_mem_of_ne_nil _ hne
  exact h.exists_start hp

theorem mem_symbols_iff (h : Consistent g) {s : Symbol} : s ∈ g.symbols ↔ g.Occurs s := by
  rw [symbols, List.mem_append]
  constructor
  · rintro (hs | hs)
    · exact (h.mem_terminals_iff.mp hs).2
    · exact (h.mem_nonterminals_iff.mp hs).2
  · exact h.mem_terminals_or_mem_nonterminals

/-- The sets that are computed for a grammar are no part of this. -/
theorem withSets (h : Consistent g) (first follow : SymbolSets) :
    Consistent { g with first := first, follow := follow } :=
  ⟨h.1, h.2, h.3, h.4, h.5, h.6, h.7⟩

/-! ### Numbers of rules -/

/-- The number of a rule is that of a production with the rule. -/
theorem exists_of_ruleNumber? (h : Consistent g) {r : Rule} {n : Nat}
    (hn : g.ruleNumber? r = some n) : ∃ p, g.productions[n]? = some p ∧ p.toRule = r := by
  rw [ruleNumber?, h.find?_byRule, List.idxOf?_eq_some_iff] at hn
  obtain ⟨hlt, hr, _⟩ := hn
  have hlt' : n < g.productions.length := by
    rw [rules, List.length_map] at hlt
    exact hlt
  refine ⟨g.productions[n], List.getElem?_eq_getElem hlt', ?_⟩
  simpa [rules] using hr

theorem exists_ruleNumber? (h : Consistent g) {p : Production} (hp : p ∈ g.productions) :
    ∃ n, g.ruleNumber? p.toRule = some n := by
  rw [ruleNumber?, h.find?_byRule, ← Option.isSome_iff_exists, List.isSome_idxOf?]
  exact List.mem_map_of_mem hp

theorem ruleNumber?_eq_some_idxOf (h : Consistent g) {r : Rule} (hr : r ∈ g.rules) :
    g.ruleNumber? r = some (g.rules.idxOf r) := by
  obtain ⟨n, hn⟩ := Option.isSome_iff_exists.mp (List.isSome_idxOf?.mpr hr)
  rw [ruleNumber?, h.find?_byRule, List.idxOf_eq_getD_idxOf?, hn]
  rfl

end Consistent

/-! ### Derivations -/

variable {g : Grammar} {xs ys : List Symbol}

/-- What the symbols on right sides inherit from the names holds of all that is derived. -/
theorem forall_of_derives {rs : List Rule} {P : Symbol → Prop}
    (inherit : ∀ r ∈ rs, P r.name → ∀ x ∈ r.rhs, P x) (h : Derives rs xs ys)
    (hxs : ∀ s ∈ xs, P s) : ∀ s ∈ ys, P s := by
  induction h with
  | refl => exact hxs
  | tail _ step ih =>
    cases step with
    | @replace left right r mem =>
      have hname : P r.name := ih r.name (List.mem_append_right left (List.mem_cons_self ..))
      intro s hs
      simp only [List.mem_append] at hs
      rcases hs with hs | hs | hs
      · exact ih s (List.mem_append_left _ hs)
      · exact inherit r mem hname s hs
      · exact ih s (List.mem_append_right left (List.mem_cons_of_mem _ hs))

/-- Symbols that occur derive nothing but symbols that occur. -/
theorem occurs_of_derives (h : Derives g.rules xs ys) (hxs : ∀ s ∈ xs, g.Occurs s) :
    ∀ s ∈ ys, g.Occurs s := by
  refine forall_of_derives (fun r hr _ s hs => ?_) h hxs
  obtain ⟨p, hp, rfl⟩ := List.mem_map.mp hr
  exact ⟨p, hp, .inr hs⟩

/-! ### Rules one after another -/

/-- The grammar that rules lead to when they are added one after another. -/
def addRules (rs : List Rule) : Except Fault Grammar :=
  rs.foldlM (fun g r => Prod.fst <$> g.add r) ∅

theorem ofRules_concat (rs : List Rule) (r : Rule) : ofRules (rs ++ [r]) = (ofRules rs).push r :=
  List.foldl_concat ..

theorem add_eq_ok_iff {r : Rule} {g' : Grammar} {p : Production} :
    g.add r = .ok (g', p) ↔
      r.name.isNonterminal = true ∧ g' = g.push r ∧ p = ⟨r, g.nextNumber⟩ := by
  unfold add
  split
  · next hname => simp [hname, eq_comm]
  · next hname => simp [hname]

/-- What one more rule keeps holds of every grammar that rules lead to. -/
theorem addRules_induction {P : List Rule → Grammar → Prop} (empty : P [] ∅)
    (push : ∀ rs g r, r.name.isNonterminal = true → P rs g → P (rs ++ [r]) (g.push r))
    {rs : List Rule} (h : addRules rs = .ok g) : P rs g := by
  induction rs using List.reverseRecOn generalizing g with
  | nil =>
    obtain rfl := Except.ok.inj h
    exact empty
  | append_singleton rs r ih =>
    rw [addRules, List.foldlM_append] at h
    obtain ⟨g₀, hg₀, h⟩ := bind_eq_ok_iff.mp h
    rw [List.foldlM_cons] at h
    obtain ⟨g₁, hg₁, h⟩ := bind_eq_ok_iff.mp h
    obtain rfl := Except.ok.inj h
    obtain ⟨⟨g₂, p⟩, hadd, rfl⟩ := map_eq_ok_iff.mp hg₁
    obtain ⟨hname, rfl, _⟩ := add_eq_ok_iff.mp hadd
    exact push rs g₀ r hname (ih hg₀)

theorem consistent_of_addRules {rs : List Rule} (h : addRules rs = .ok g) : g.Consistent :=
  addRules_induction (P := fun _ g => g.Consistent) .empty (fun _ _ _ hname hg => hg.push hname) h

theorem rules_of_addRules {rs : List Rule} (h : addRules rs = .ok g) : g.rules = rs := by
  refine addRules_induction (P := fun rs g => g.rules = rs) rfl (fun rs g r _ hg => ?_) h
  rw [rules_push, hg]

/-- Rules are added without fail if their names are legal. -/
theorem addRules_eq_ofRules {rs : List Rule} (h : ∀ r ∈ rs, r.name.isNonterminal = true) :
    addRules rs = .ok (ofRules rs) := by
  induction rs using List.reverseRecOn with
  | nil => rfl
  | append_singleton rs r ih =>
    have hadd : (ofRules rs).add r = .ok ((ofRules rs).push r, ⟨r, (ofRules rs).nextNumber⟩) :=
      add_eq_ok_iff.mpr ⟨h r (by simp), rfl, rfl⟩
    have hrs : addRules rs = .ok (ofRules rs) := ih fun s hs => h s (by simp [hs])
    rw [addRules] at hrs ⊢
    rw [List.foldlM_append, hrs, ofRules_concat]
    exact bind_eq_ok_iff.mpr ⟨_, rfl, by rw [List.foldlM_cons, hadd]; rfl⟩

theorem consistent_ofRules {rs : List Rule} (h : ∀ r ∈ rs, r.name.isNonterminal = true) :
    (ofRules rs).Consistent := consistent_of_addRules (addRules_eq_ofRules h)

/-- Nothing is computed while rules are added. -/
theorem unsolved_of_addRules {rs : List Rule} (h : addRules rs = .ok g) :
    g.first = ∅ ∧ g.follow = ∅ := by
  refine addRules_induction (P := fun _ g => g.first = ∅ ∧ g.follow = ∅) ⟨rfl, rfl⟩
    (fun _ g r _ hg => ?_) h
  rw [congrArg first (push_eq g r), congrArg follow (push_eq g r)]
  exact hg

end ShiftReduce.Grammar
