/-
FIRST sets are exactly what derivations say.

The rules hold of the sets that are computed, so these have whatever a derived row begins with. They
have nothing else: what an inclusion adds is what the right side of a production begins with, as far
as the sets know by then, and what they know by then is right.

* `Grammar.Begins` — what the rows that are derived from a row begin with;
* `Grammar.begins_of_starts` — sets that are right for symbols are right for rows of symbols;
* `Grammar.begins_of_saturate` — each inclusion keeps the sets right, and so do all rounds;
* `Grammar.computeFirst_isFirst` — FIRST sets of symbols and of rows of symbols.
-/
import ShiftReduce.Proofs.Grammar.Beginnings

namespace ShiftReduce.Grammar

/-- The terminals that derived rows begin with, and the mark of the empty string if the row without
symbols is derived. -/
def Begins (g : Grammar) (xs : List Symbol) (x : Symbol) : Prop :=
  (x = Symbol.empty ∧ Derives g.rules xs []) ∨
    x ∈ g.terminals ∧ ∃ rest, Derives g.rules xs (x :: rest)

/-- A list without repeats of the terminals that derived rows begin with, and of the mark of the
empty string if the row without symbols is derived. -/
structure IsFirst (g : Grammar) (xs l : List Symbol) : Prop where
  nodup : l.Nodup
  mem_iff : ∀ t ∈ g.terminals, t ∈ l ↔ ∃ rest, Derives g.rules xs (t :: rest)
  empty_mem_iff : Symbol.empty ∈ l ↔ Derives g.rules xs []
  subset : ∀ x ∈ l, x ∈ g.terminals ∨ x = Symbol.empty

variable {g : Grammar} {s x : Symbol} {xs ys l : List Symbol} {sets sets' : SymbolSets}

theorem Begins.of_derives (hd : Derives g.rules xs ys) (h : g.Begins ys x) : g.Begins xs x := by
  rcases h with ⟨hx, hnone⟩ | ⟨ht, rest, hrest⟩
  · exact .inl ⟨hx, hd.trans hnone⟩
  · exact .inr ⟨ht, rest, hd.trans hrest⟩

theorem Begins.cons (h : g.Begins [s] x) (hx : x ≠ Symbol.empty) (xs : List Symbol) :
    g.Begins (s :: xs) x := by
  rcases h with ⟨hempty, _⟩ | ⟨ht, rest, hrest⟩
  · exact absurd hempty hx
  · exact .inr ⟨ht, rest ++ xs, hrest.context [] xs⟩

theorem Begins.of_production {p : Production} (hp : p ∈ g.productions) (h : g.Begins p.rhs x) :
    g.Begins [p.name] x := by
  have hstep : Derives g.rules [p.name] (p.rhs ++ []) :=
    (Produces.replace [] [] (List.mem_map_of_mem hp)).derives
  rw [List.append_nil] at hstep
  exact h.of_derives hstep

theorem isFirst_of_mem_iff (hempty : Symbol.empty ∉ g.terminals) (hnodup : l.Nodup)
    (h : ∀ x, x ∈ l ↔ g.Begins xs x) : g.IsFirst xs l where
  nodup := hnodup
  mem_iff t ht := by
    have hne : t ≠ Symbol.empty := fun heq => hempty (heq ▸ ht)
    simp [h, Begins, hne, ht]
  empty_mem_iff := by simp [h, Begins, hempty]
  subset x hx := by
    rcases (h x).mp hx with ⟨hx, _⟩ | ⟨ht, _⟩
    · exact .inr hx
    · exact .inl ht

/-! ### Nothing but what is derived -/

/-- If the sets of symbols have nothing but what derived rows begin with, neither have those of rows
of symbols. -/
theorem begins_of_starts (hempty : Symbol.empty ∉ g.terminals)
    (hsets : ∀ s x, sets.Has s x → g.Begins [s] x) (h : Starts sets xs x) : g.Begins xs x := by
  induction xs with
  | nil => exact .inl ⟨starts_nil_iff.mp h, .refl []⟩
  | cons s xs ih =>
    rcases h.cons_cases with ⟨hx, hs⟩ | ⟨hs, hstarts⟩
    · exact (hsets s x hs).cons hx xs
    · -- The first symbol derives nothing, which leaves the others.
      have hnone : Derives g.rules [s] [] := by
        rcases hsets s _ hs with ⟨_, hnone⟩ | ⟨ht, _⟩
        · exact hnone
        · exact absurd ht hempty
      exact (ih hstarts).of_derives (hnone.context [] xs)

/-- One inclusion keeps the sets right. -/
theorem begins_of_apply (hg : g.Consistent) (hempty : Symbol.empty ∉ g.terminals) {c : Inclusion}
    (hc : c ∈ g.firstInclusions) (hsets : ∀ s x, sets.Has s x → g.Begins [s] x)
    (happly : c.apply sets = .ok sets') : ∀ s x, sets'.Has s x → g.Begins [s] x := by
  intro s x hx
  rcases Inclusion.has_of_apply happly hx with hold | ⟨rfl, found, hfound, hnew⟩
  · exact hsets s x hold
  · obtain ⟨p, hp, rfl⟩ := (mem_firstInclusions_iff hg).mp hc
    exact (begins_of_starts hempty hsets ⟨found, hfound, hnew⟩).of_production hp

theorem begins_of_initialFirst (hx : g.initialFirst.Has s x) : g.Begins [s] x := by
  obtain ⟨l, hl, hx⟩ := hx
  rw [find?_initialFirst] at hl
  split at hl
  · obtain rfl := Option.some.inj hl
    cases hx
  · split at hl
    · next ht =>
      obtain rfl := Option.some.inj hl
      obtain rfl := List.mem_singleton.mp hx
      exact .inr ⟨ht, [], .refl _⟩
    · cases hl

theorem begins_of_saturate (hg : g.Consistent) (hempty : Symbol.empty ∉ g.terminals)
    {rounds : Nat} {outcome : Except Fault Unit}
    (h : Inclusion.saturate g.firstInclusions rounds g.initialFirst = (sets, outcome)) :
    ∀ s x, sets.Has s x → g.Begins [s] x :=
  Inclusion.saturate_induction (I := fun sets => ∀ s x, sets.Has s x → g.Begins [s] x)
    (fun _ hc _ _ hsets happly => begins_of_apply hg hempty hc hsets happly) h
    fun _ _ hx => begins_of_initialFirst hx

theorem nodup_of_saturate (h : Inclusion.saturate g.firstInclusions g.firstRounds g.initialFirst =
    (sets, .ok ())) (hl : sets.find? s = some l) : l.Nodup := by
  obtain ⟨_, hwithin, _⟩ := Inclusion.saturate_ok g.firstInclusions_drawsFrom g.initialFirst_within
    g.firstRounds_suffice h
  exact (hwithin s l hl).1

/-- The set of a terminal stays as it is, since no inclusion has it as its target. -/
theorem find?_terminal_of_saturate (hg : g.Consistent) {t : Symbol} (ht : t ∈ g.terminals)
    {rounds : Nat} {outcome : Except Fault Unit}
    (h : Inclusion.saturate g.firstInclusions rounds g.initialFirst = (sets, outcome)) :
    sets.find? t = some [t] := by
  refine Inclusion.saturate_induction (I := fun sets => sets.find? t = some [t])
    (fun c hc sets sets' hsets happly => ?_) h ?_
  · obtain ⟨p, hp, rfl⟩ := (mem_firstInclusions_iff hg).mp hc
    have hne : t ≠ p.name := by
      rintro rfl
      exact hg.not_mem_nonterminals ht (hg.name_mem_nonterminals hp)
    rw [Inclusion.find?_of_apply happly hne, hsets]
  · show g.initialFirst.find? t = some [t]
    rw [find?_initialFirst, if_neg (hg.not_mem_nonterminals ht), if_pos ht]

/-! ### All that is derived -/

theorem FirstSolved.starts_iff (h : g.FirstSolved) (hempty : Symbol.empty ∉ g.terminals)
    (hsets : ∀ s x, g.first.Has s x → g.Begins [s] x) (hxs : ∀ s ∈ xs, g.Occurs s) :
    Starts g.first xs x ↔ g.Begins xs x := by
  constructor
  · exact begins_of_starts hempty hsets
  · rintro (⟨rfl, hnone⟩ | ⟨ht, rest, hrest⟩)
    · exact h.starts_of_derives hxs hnone starts_nil
    · exact h.starts_of_derives_cons hxs ht (fun heq => hempty (heq ▸ ht)) hrest

/-- The sets of symbols that are computed, and what they give for rows of symbols, are the FIRST
sets. -/
theorem computeFirst_isFirst {rs : List Rule} {g : Grammar} (hrules : addRules rs = .ok g)
    (hempty : ∀ r ∈ rs, Symbol.empty ∉ r.rhs) :
    g.rules = rs ∧ ∃ sets, g.computeFirst = ({ g with first := sets }, .ok sets) ∧
      (∀ s, s ∈ sets ↔ s ∈ g.symbols) ∧
      (∀ n ∈ g.nonterminals, ∃ l, sets.find? n = some l ∧ g.IsFirst [n] l) ∧
      (∀ t ∈ g.terminals, sets.find? t = some [t]) ∧
      ∀ xs, (∀ s ∈ xs, s ∈ g.symbols) → ∃ l, firstOf sets xs = .ok l ∧ g.IsFirst xs l := by
  have hg := consistent_of_addRules hrules
  obtain rfl := rules_of_addRules hrules
  have hno : Symbol.empty ∉ g.terminals := by
    intro ht
    obtain ⟨p, hp, hrhs⟩ := hg.exists_mem_rhs ht
    exact hempty p.toRule (List.mem_map_of_mem hp) hrhs
  obtain ⟨sets, hcompute, hsaturate⟩ := exists_computeFirst hg (unsolved_of_addRules hrules).1
  have hsolved := firstSolved_of_saturate hg hsaturate
  have hsets := begins_of_saturate hg hno hsaturate
  have hkeys : ∀ s, s ∈ sets ↔ s ∈ g.symbols := fun s =>
    (hsolved.mem_iff s).trans hg.mem_symbols_iff.symm
  have hrows : ∀ xs, (∀ s ∈ xs, s ∈ g.symbols) → ∀ x, Starts sets xs x ↔ g.Begins xs x :=
    fun xs hxs _ => hsolved.starts_iff hno hsets fun s hs => hg.mem_symbols_iff.mp (hxs s hs)
  refine ⟨rfl, sets, hcompute, hkeys, fun n hn => ?_, fun t ht =>
    find?_terminal_of_saturate hg ht hsaturate, fun xs hxs => ?_⟩
  · have hsymbol : n ∈ g.symbols := List.mem_append_right _ hn
    obtain ⟨l, hl⟩ := Assoc.exists_find? ((hkeys n).mpr hsymbol)
    refine ⟨l, hl, isFirst_of_mem_iff hno (nodup_of_saturate hsaturate hl) fun x => ?_⟩
    rw [← hrows [n] (fun s hs => List.mem_singleton.mp hs ▸ hsymbol), starts_singleton_iff]
    exact (Assoc.has_iff_of_find? hl).symm
  · obtain ⟨l, hl⟩ := exists_firstOf fun s hs => (hkeys s).mpr (hxs s hs)
    refine ⟨l, hl, isFirst_of_mem_iff hno (nodup_firstOf hl) fun x => ?_⟩
    rw [← hrows xs hxs, starts_iff_of_firstOf hl]

/-- Rules with a name that can be empty, one that is left recursive, one that has no end and one
that is undefined. -/
def tangledRules : List Rule :=
  [⟨"S", ["A", "D", "B", "c"]⟩, ⟨"A", ["A", "a"]⟩, ⟨"A", []⟩, ⟨"D", ["A", "A"]⟩,
    ⟨"B", ["b", "B"]⟩, ⟨"B", ["U", "S"]⟩]

example : (ofRules tangledRules).computeFirst.2.toOption.bind (fun sets => sets.find? "S") =
    some ["b", "a"] := by
  decide

/-- The FIRST sets of these rules, and of all rows of their symbols. -/
theorem computeFirst_isFirst_tangledRules :
    ∃ g, addRules tangledRules = .ok g ∧ (∀ r ∈ tangledRules, Symbol.empty ∉ r.rhs) ∧
      g.rules = tangledRules ∧ ∃ sets, g.computeFirst = ({ g with first := sets }, .ok sets) ∧
        (∀ s, s ∈ sets ↔ s ∈ g.symbols) ∧
        (∀ n ∈ g.nonterminals, ∃ l, sets.find? n = some l ∧ g.IsFirst [n] l) ∧
        (∀ t ∈ g.terminals, sets.find? t = some [t]) ∧
        ∀ xs, (∀ s ∈ xs, s ∈ g.symbols) → ∃ l, firstOf sets xs = .ok l ∧ g.IsFirst xs l :=
  ⟨_, rfl, by decide, computeFirst_isFirst rfl (by decide)⟩

end ShiftReduce.Grammar
