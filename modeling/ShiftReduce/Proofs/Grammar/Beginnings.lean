/-
What rows of symbols begin with.

* `Starts` — a symbol, or the mark of the empty string, is in the FIRST set of a row;
* `starts_cons_of_has`, `starts_cons_of_empty`, `Starts.cons_cases` — a row begins with what its
  first symbol begins with, and with what the others begin with if that one can be empty;
* `Grammar.FirstSolved` — FIRST sets for which all rules hold;
* `Grammar.FirstSolved.starts_of_derives`, `Grammar.FirstSolved.starts_of_yields` — they have what
  every derived row begins with, and every text that a row yields;
* `Grammar.exists_computeFirst`, `Grammar.firstSolved_of_saturate` — FIRST sets are computed without
  fail, and are such sets.
-/
import ShiftReduce.Grammar.First
import ShiftReduce.Proofs.Grammar.Yield
import ShiftReduce.Proofs.Saturation

namespace ShiftReduce

/-- A symbol, or the mark of the empty string, is in the FIRST set of a row of symbols. -/
def Starts (sets : SymbolSets) (xs : List Symbol) (x : Symbol) : Prop :=
  ∃ found, firstOf sets xs = .ok found ∧ x ∈ found

variable {sets : SymbolSets} {s x : Symbol} {xs ys : List Symbol}

theorem starts_iff_of_firstOf {found : List Symbol} (h : firstOf sets xs = .ok found) :
    Starts sets xs x ↔ x ∈ found := by
  constructor
  · rintro ⟨found', hfound', hx⟩
    obtain rfl := Except.ok.inj (h.symm.trans hfound')
    exact hx
  · exact fun hx => ⟨found, h, hx⟩

theorem firstOf_cons {own rest : List Symbol} (hown : sets.find? s = some own)
    (hrest : firstOf sets xs = .ok rest) :
    firstOf sets (s :: xs) = .ok
      (if Symbol.empty ∈ own then extend (extend [] (own.filter (· ≠ Symbol.empty))) rest
        else extend [] (own.filter (· ≠ Symbol.empty))) := by
  rw [firstOf, SymbolSets.get_eq_ok_iff.mpr hown, hrest]
  by_cases h : Symbol.empty ∈ own
  · rw [if_pos h]
    simp only [bind, Except.bind, if_pos h]
    rfl
  · rw [if_neg h]
    simp only [bind, Except.bind, if_neg h]
    rfl

theorem nodup_firstOf {found : List Symbol} (h : firstOf sets xs = .ok found) : found.Nodup := by
  cases xs with
  | nil =>
    obtain rfl := Except.ok.inj h
    simp
  | cons s xs =>
    rw [firstOf] at h
    obtain ⟨own, _, h⟩ := bind_eq_ok_iff.mp h
    have hvisible := nodup_extend List.nodup_nil (own.filter (· ≠ Symbol.empty))
    dsimp only at h
    split at h
    · obtain ⟨rest, _, h⟩ := bind_eq_ok_iff.mp h
      obtain rfl := Except.ok.inj h
      exact nodup_extend hvisible rest
    · obtain rfl := Except.ok.inj h
      exact hvisible

theorem exists_firstOf (h : ∀ s ∈ xs, s ∈ sets) : ∃ found, firstOf sets xs = .ok found := by
  induction xs with
  | nil => exact ⟨_, rfl⟩
  | cons s xs ih =>
    obtain ⟨own, hown⟩ := Assoc.exists_find? (h s (List.mem_cons_self ..))
    obtain ⟨rest, hrest⟩ := ih fun y hy => h y (List.mem_cons_of_mem s hy)
    exact ⟨_, firstOf_cons hown hrest⟩

theorem starts_nil_iff : Starts sets [] x ↔ x = Symbol.empty :=
  (starts_iff_of_firstOf rfl).trans List.mem_singleton

theorem starts_nil : Starts sets [] Symbol.empty := starts_nil_iff.mpr rfl

theorem starts_cons_of_has (hxs : ∀ y ∈ xs, y ∈ sets) (h : sets.Has s x) (hx : x ≠ Symbol.empty) :
    Starts sets (s :: xs) x := by
  obtain ⟨own, hown, hmem⟩ := h
  obtain ⟨rest, hrest⟩ := exists_firstOf hxs
  refine ⟨_, firstOf_cons hown hrest, ?_⟩
  have hvisible : x ∈ extend [] (own.filter (· ≠ Symbol.empty)) := by simp [hmem, hx]
  split
  · exact mem_extend.mpr (.inl hvisible)
  · exact hvisible

theorem starts_cons_of_empty (h : sets.Has s Symbol.empty) (hx : Starts sets xs x) :
    Starts sets (s :: xs) x := by
  obtain ⟨own, hown, hmem⟩ := h
  obtain ⟨rest, hrest, hx⟩ := hx
  refine ⟨_, firstOf_cons hown hrest, ?_⟩
  rw [if_pos hmem]
  exact mem_extend.mpr (.inr hx)

theorem Starts.cons_cases (h : Starts sets (s :: xs) x) :
    (x ≠ Symbol.empty ∧ sets.Has s x) ∨ sets.Has s Symbol.empty ∧ Starts sets xs x := by
  obtain ⟨found, hfound, hx⟩ := h
  rw [firstOf] at hfound
  obtain ⟨own, hown, hfound⟩ := bind_eq_ok_iff.mp hfound
  have hown := SymbolSets.get_eq_ok_iff.mp hown
  have hvisible : x ∈ extend [] (own.filter (· ≠ Symbol.empty)) →
      x ≠ Symbol.empty ∧ sets.Has s x := by
    intro hx
    have hx : x ∈ own ∧ x ≠ Symbol.empty := by simpa using hx
    exact ⟨hx.2, own, hown, hx.1⟩
  dsimp only at hfound
  split at hfound
  · next hempty =>
    obtain ⟨rest, hrest, hfound⟩ := bind_eq_ok_iff.mp hfound
    obtain rfl := Except.ok.inj hfound
    rcases mem_extend.mp hx with hx | hx
    · exact .inl (hvisible hx)
    · exact .inr ⟨⟨own, hown, hempty⟩, rest, hrest, hx⟩
  · obtain rfl := Except.ok.inj hfound
    exact .inl (hvisible hx)

theorem starts_singleton_iff : Starts sets [s] x ↔ sets.Has s x := by
  constructor
  · intro h
    rcases h.cons_cases with ⟨_, hs⟩ | ⟨hs, hnil⟩
    · exact hs
    · rwa [starts_nil_iff.mp hnil]
  · intro h
    by_cases hx : x = Symbol.empty
    · exact starts_cons_of_empty (hx ▸ h) (hx ▸ starts_nil)
    · exact starts_cons_of_has (fun y hy => absurd hy List.not_mem_nil) h hx

/-- The FIRST set of a row has nothing but members of the sets of its symbols, and the mark of the
empty string. -/
theorem Starts.eq_empty_or_has (h : Starts sets xs x) :
    x = Symbol.empty ∨ ∃ s ∈ xs, sets.Has s x := by
  induction xs with
  | nil => exact .inl (starts_nil_iff.mp h)
  | cons s xs ih =>
    rcases h.cons_cases with ⟨_, hs⟩ | ⟨_, hrest⟩
    · exact .inr ⟨s, List.mem_cons_self .., hs⟩
    · rcases ih hrest with hx | ⟨t, ht, hx⟩
      · exact .inl hx
      · exact .inr ⟨t, List.mem_cons_of_mem s ht, hx⟩

theorem Starts.append_cases (hxs : ∀ y ∈ xs, y ∈ sets) (h : Starts sets (xs ++ ys) x) :
    (x ≠ Symbol.empty ∧ Starts sets xs x) ∨ Starts sets xs Symbol.empty ∧ Starts sets ys x := by
  induction xs with
  | nil => exact .inr ⟨starts_nil, h⟩
  | cons s xs ih =>
    have hrest : ∀ y ∈ xs, y ∈ sets := fun y hy => hxs y (List.mem_cons_of_mem s hy)
    rcases h.cons_cases with ⟨hx, hs⟩ | ⟨hs, h⟩
    · exact .inl ⟨hx, starts_cons_of_has hrest hs hx⟩
    · rcases ih hrest h with ⟨hx, hstarts⟩ | ⟨hempty, hstarts⟩
      · exact .inl ⟨hx, starts_cons_of_empty hs hstarts⟩
      · exact .inr ⟨starts_cons_of_empty hs hempty, hstarts⟩

namespace Grammar

variable {g : Grammar}

/-- FIRST sets for which all rules hold. -/
structure FirstSolved (g : Grammar) : Prop where
  mem_iff : ∀ s, s ∈ g.first ↔ g.Occurs s
  has_self : ∀ t ∈ g.terminals, g.first.Has t t
  /-- A name begins with what its right sides begin with. -/
  has_name : ∀ p ∈ g.productions, ∀ x, Starts g.first p.rhs x → g.first.Has p.name x

theorem FirstSolved.withFollow (h : g.FirstSolved) (follow : SymbolSets) :
    FirstSolved { g with follow := follow } := ⟨h.1, h.2, h.3⟩

/-- A row that yields a text consists of symbols with FIRST sets. -/
theorem FirstSolved.mem_first_of_yields (h : g.FirstSolved) {ns : List Nat} {w : List Symbol}
    (hy : Yields g xs ns w) : ∀ y ∈ xs, y ∈ g.first := by
  induction hy with
  | nil =>
    intro y hy
    cases hy
  | leaf ht _ ih =>
    intro y hy
    rcases List.mem_cons.mp hy with rfl | hy
    · obtain ⟨l, hl, _⟩ := h.has_self _ ht
      exact Assoc.mem_of_find? hl
    · exact ih y hy
  | node hp _ _ _ ih =>
    intro y hy
    rcases List.mem_cons.mp hy with rfl | hy
    · exact (h.mem_iff _).mpr ⟨_, List.mem_of_getElem? hp, .inl rfl⟩
    · exact ih y hy

/-- What a row begins with after a step, it begins with before it. -/
theorem FirstSolved.starts_of_produces (h : g.FirstSolved) (hxs : ∀ y ∈ xs, g.Occurs y)
    (step : Produces g.rules xs ys) (hx : Starts g.first ys x) : Starts g.first xs x := by
  cases step with
  | @replace left right r mem =>
    obtain ⟨p, hp, rfl⟩ := List.mem_map.mp mem
    induction left with
    | nil =>
      have hright : ∀ y ∈ right, y ∈ g.first := fun y hy =>
        (h.mem_iff y).mpr (hxs y (List.mem_cons_of_mem _ hy))
      have hrhs : ∀ y ∈ p.rhs, y ∈ g.first := fun y hy => (h.mem_iff y).mpr ⟨p, hp, .inr hy⟩
      rcases hx.append_cases hrhs with ⟨hx, hstarts⟩ | ⟨hempty, hstarts⟩
      · exact starts_cons_of_has hright (h.has_name p hp x hstarts) hx
      · exact starts_cons_of_empty (h.has_name p hp _ hempty) hstarts
    | cons s left ih =>
      have hrest : ∀ y ∈ left ++ p.name :: right, g.Occurs y := fun y hy =>
        hxs y (List.mem_cons_of_mem s hy)
      rcases hx.cons_cases with ⟨hx, hs⟩ | ⟨hs, hstarts⟩
      · exact starts_cons_of_has (fun y hy => (h.mem_iff y).mpr (hrest y hy)) hs hx
      · exact starts_cons_of_empty hs (ih hrest hstarts)

/-- What a row begins with at the end of a derivation, it begins with from the start. -/
theorem FirstSolved.starts_of_derives (h : g.FirstSolved) (hxs : ∀ y ∈ xs, g.Occurs y)
    (hd : Derives g.rules xs ys) (hx : Starts g.first ys x) : Starts g.first xs x := by
  induction hd with
  | refl => exact hx
  | tail hd step ih => exact ih (h.starts_of_produces (occurs_of_derives hd hxs) step hx)

theorem FirstSolved.starts_of_derives_cons (h : g.FirstSolved) (hxs : ∀ y ∈ xs, g.Occurs y)
    {t : Symbol} {rest : List Symbol} (ht : t ∈ g.terminals) (hempty : t ≠ Symbol.empty)
    (hd : Derives g.rules xs (t :: rest)) : Starts g.first xs t := by
  have hrest : ∀ y ∈ rest, y ∈ g.first := fun y hy =>
    (h.mem_iff y).mpr (occurs_of_derives hd hxs y (List.mem_cons_of_mem t hy))
  exact h.starts_of_derives hxs hd (starts_cons_of_has hrest (h.has_self t ht) hempty)

/-- What a text begins with that a row yields: the mark of the empty string stands for nothing. -/
theorem FirstSolved.starts_of_yields (h : g.FirstSolved)
    (hempty : ∀ t ∈ g.terminals, t ≠ Symbol.empty) {ns : List Nat} {w : List Symbol}
    (hy : Yields g xs ns w) : Starts g.first xs (w.headD Symbol.empty) := by
  have hxs : ∀ y ∈ xs, g.Occurs y := fun y hx => (h.mem_iff y).mp (h.mem_first_of_yields hy y hx)
  cases w with
  | nil => exact h.starts_of_derives hxs hy.derives starts_nil
  | cons t w =>
    have ht := hy.mem_terminals t (List.mem_cons_self ..)
    exact h.starts_of_derives_cons hxs ht (hempty t ht) hy.derives

/-! ### Computing -/

theorem find?_initialFirst (g : Grammar) (s : Symbol) :
    g.initialFirst.find? s =
      if s ∈ g.nonterminals then some [] else if s ∈ g.terminals then some [s] else none := by
  unfold initialFirst
  dsimp only
  rw [Assoc.find?_foldl_insert _ fun _ => [], Assoc.find?_foldl_insert _ fun t => [t],
    Assoc.find?_empty]
  rfl

/-- The members that FIRST sets can have. -/
def firstStock (g : Grammar) : List Symbol := g.terminals.keys ++ [Symbol.empty]

theorem initialFirst_within (g : Grammar) : g.initialFirst.Within g.firstStock := by
  intro s l hl
  rw [find?_initialFirst] at hl
  split at hl
  · obtain rfl := Option.some.inj hl
    exact ⟨List.nodup_nil, List.nil_subset _⟩
  · split at hl
    · next hs =>
      obtain rfl := Option.some.inj hl
      refine ⟨List.pairwise_singleton _ s, fun x hx => ?_⟩
      rw [List.mem_singleton.mp hx]
      exact List.mem_append_left _ hs
    · cases hl

theorem mem_initialFirst (g : Grammar) (s : Symbol) : s ∈ g.initialFirst ↔ s ∈ g.symbols := by
  rw [← Assoc.find?_isSome_iff, find?_initialFirst, symbols, List.mem_append, ← Assoc.mem_def,
    ← Assoc.mem_def]
  by_cases hn : s ∈ g.nonterminals
  · simp [hn]
  · by_cases ht : s ∈ g.terminals <;> simp [hn, ht]

theorem firstInclusions_drawsFrom (g : Grammar) :
    Inclusion.DrawsFrom g.firstInclusions g.firstStock := by
  intro c hc sets found hsets hfound x hx
  obtain ⟨n, _, hc⟩ := List.mem_flatMap.mp hc
  obtain ⟨p, _, rfl⟩ := List.mem_map.mp hc
  have hstarts : Starts sets p.rhs x := ⟨found, hfound, hx⟩
  rcases hstarts.eq_empty_or_has with rfl | ⟨s, _, l, hl, hmem⟩
  · exact List.mem_append_right _ (List.mem_singleton_self _)
  · exact (hsets s l hl).2 hmem

theorem mem_firstInclusions_iff (hg : g.Consistent) {c : Inclusion} :
    c ∈ g.firstInclusions ↔
      ∃ p ∈ g.productions, c = ⟨p.name, fun sets => firstOf sets p.rhs⟩ := by
  unfold firstInclusions
  simp only [List.mem_flatMap, List.mem_map, hg.productionsOf_eq, List.mem_filter,
    decide_eq_true_eq]
  constructor
  · rintro ⟨_, _, p, ⟨hp, rfl⟩, rfl⟩
    exact ⟨p, hp, rfl⟩
  · rintro ⟨p, hp, rfl⟩
    exact ⟨p.name, hg.name_mem_nonterminals hp, p, ⟨hp, rfl⟩, rfl⟩

/-- Inclusions give something wherever every symbol that occurs has a set. -/
theorem firstInclusions_totalOn (hg : g.Consistent) {keys : List Symbol}
    (hkeys : ∀ s, g.Occurs s → s ∈ keys) : Inclusion.Total g.firstInclusions keys := by
  intro c hc
  obtain ⟨p, hp, rfl⟩ := (mem_firstInclusions_iff hg).mp hc
  refine ⟨hkeys p.name ⟨p, hp, .inl rfl⟩, fun sets hsets => exists_firstOf fun s hs => ?_⟩
  show s ∈ sets.keys
  rw [hsets]
  exact hkeys s ⟨p, hp, .inr hs⟩

theorem firstInclusions_total (hg : g.Consistent) :
    Inclusion.Total g.firstInclusions g.initialFirst.keys :=
  firstInclusions_totalOn hg fun s hs => (mem_initialFirst g s).mpr (hg.mem_symbols_iff.mpr hs)

/-- Sets for which all inclusions hold, and which grew from the initial ones, are a solution. -/
theorem firstSolved_of_holds (hg : g.Consistent) {sets : SymbolSets}
    (hgrows : g.initialFirst.Grows sets) (hholds : ∀ c ∈ g.firstInclusions, c.Holds sets) :
    FirstSolved { g with first := sets } where
  mem_iff s := by
    have hs : s ∈ sets ↔ s ∈ g.initialFirst := by
      rw [Assoc.mem_def, Assoc.mem_def, hgrows.keys_eq]
    exact hs.trans ((mem_initialFirst g s).trans hg.mem_symbols_iff)
  has_self t ht := by
    refine hgrows.has ⟨[t], ?_, List.mem_singleton_self t⟩
    rw [find?_initialFirst, if_neg (hg.not_mem_nonterminals ht), if_pos ht]
  has_name := by
    rintro p hp x ⟨found, hfound, hmem⟩
    have hc := (mem_firstInclusions_iff hg).mpr ⟨p, hp, rfl⟩
    obtain ⟨found', hfound', hall⟩ := hholds _ hc
    obtain rfl := Except.ok.inj (hfound.symm.trans hfound')
    exact hall x hmem

theorem firstRounds_suffice (g : Grammar) :
    g.initialFirst.keys.length * g.firstStock.length < g.firstRounds + g.initialFirst.total := by
  have hkeys : g.initialFirst.keys.length ≤ g.symbols.length :=
    (g.initialFirst.nodup.subperm fun s hs => (mem_initialFirst g s).mp hs).length_le
  have hstock : g.firstStock.length = g.terminals.keys.length + 1 := by simp [firstStock]
  have hmul := Nat.mul_le_mul_right g.firstStock.length hkeys
  rw [firstRounds, ← hstock]
  omega

/-- FIRST sets are computed by rounds up to the bound, which do not fail. -/
theorem exists_computeFirst (hg : g.Consistent) (hnone : g.first = ∅) :
    ∃ sets, g.computeFirst = ({ g with first := sets }, .ok sets) ∧
      Inclusion.saturate g.firstInclusions g.firstRounds g.initialFirst = (sets, .ok ()) := by
  have hempty : g.first.isEmpty = true := hnone ▸ rfl
  obtain ⟨sets, hsaturate⟩ := Inclusion.saturate_total (firstInclusions_total hg)
  refine ⟨sets, ?_, hsaturate⟩
  rw [computeFirst, if_pos hempty, hsaturate]
  rfl

theorem firstSolved_of_saturate (hg : g.Consistent) {sets : SymbolSets}
    (h : Inclusion.saturate g.firstInclusions g.firstRounds g.initialFirst = (sets, .ok ())) :
    FirstSolved { g with first := sets } := by
  obtain ⟨hgrows, _, hholds⟩ := Inclusion.saturate_ok g.firstInclusions_drawsFrom
    g.initialFirst_within g.firstRounds_suffice h
  exact firstSolved_of_holds hg hgrows hholds

end Grammar

end ShiftReduce
