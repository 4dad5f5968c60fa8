/-
What can follow a non-terminal.

* `Grammar.FollowSolved` — FOLLOW sets for which all rules hold;
* `Grammar.CanFollow` — what can stand behind a row of symbols at the end of a right side;
* `Grammar.FollowSolved.has_of_canFollow` — it is in the FOLLOW set of the symbol before the row;
* `Grammar.FirstSolved.canFollow_append` — in front of the row, the text that another row yields
  can stand for that other row;
* `Grammar.exists_of_mem_followInclusions` — what an inclusion gives for a non-terminal;
* `Grammar.computeFollow_eq_saturate` — FOLLOW sets that are not there are computed by rounds;
* `Grammar.exists_computeFollow`, `Grammar.followSolved_of_saturate` — they are computed without fail
  from FIRST sets for which all rules hold, and are a solution;
* `Grammar.exists_sets` — both kinds of sets, where nothing is computed yet.
-/
import ShiftReduce.Grammar.Follow
import ShiftReduce.Proofs.Automaton.Items
import ShiftReduce.Proofs.Grammar.Beginnings

namespace ShiftReduce

namespace Grammar

variable {g : Grammar} {a : Augmented}

/-- FOLLOW sets for which all rules hold. -/
structure FollowSolved (g : Grammar) : Prop where
  /-- The end of the input follows the start symbol. -/
  has_endMark : ∀ s, g.start = some s → g.follow.Has s Symbol.endMark
  /-- A non-terminal is followed by what the symbols behind it begin with. -/
  has_rest : ∀ p ∈ g.productions, ∀ l b r, p.rhs = l ++ b :: r → b ∈ g.nonterminals →
    ∀ x, x ≠ Symbol.empty → Starts g.first r x → g.follow.Has b x
  /-- A non-terminal is followed by what follows the name if the symbols behind it can be empty. -/
  has_name : ∀ p ∈ g.productions, ∀ l b r, p.rhs = l ++ b :: r → b ∈ g.nonterminals →
    Starts g.first r Symbol.empty → ∀ x, g.follow.Has p.name x → g.follow.Has b x
  /-- No set repeats a member. -/
  nodup : ∀ n l, g.follow.find? n = some l → l.Nodup

/-! ### Behind the end of a right side -/

/-- What can stand behind a name. Nothing but the end of the input stands behind the new start
symbol. -/
def FollowsName (g : Grammar) (a : Augmented) (name x : Symbol) : Prop :=
  if name = a.start then x = Symbol.endMark else g.follow.Has name x

/-- What can stand behind the name's right sides before the row `xs` at their end. -/
def CanFollow (g : Grammar) (a : Augmented) (name : Symbol) (xs : List Symbol) (x : Symbol) :
    Prop :=
  (x ≠ Symbol.empty ∧ Starts g.first xs x) ∨
    (Starts g.first xs Symbol.empty ∧ g.FollowsName a name x)

theorem canFollow_nil {name x : Symbol} (h : g.FollowsName a name x) : g.CanFollow a name [] x :=
  .inr ⟨starts_nil, h⟩

theorem FollowSolved.has_of_canFollow (h : g.FollowSolved) (hg : g.Consistent)
    (ha : Augmented.ofGrammar g = .ok a) {r : Rule} (hr : r ∈ a.allRules) {l xs : List Symbol}
    {b x : Symbol} (hrhs : r.rhs = l ++ b :: xs) (hb : b ∈ g.nonterminals)
    (hx : g.CanFollow a r.name xs x) : g.follow.Has b x := by
  obtain ⟨hstart, hrules⟩ := Augmented.ofGrammar_eq_ok_iff.mp ha
  rw [Augmented.allRules, hrules, List.mem_cons] at hr
  rcases hr with rfl | hr
  -- The start rule has nothing but the start symbol on its right side.
  · change [a.goal] = l ++ b :: xs at hrhs
    have hlen := congrArg List.length hrhs
    simp only [List.length_append, List.length_cons, List.length_nil] at hlen
    obtain rfl : l = [] := List.eq_nil_of_length_eq_zero (by omega)
    obtain rfl : xs = [] := List.eq_nil_of_length_eq_zero (by omega)
    obtain rfl := (List.cons.inj hrhs).1
    rcases hx with ⟨hne, hstarts⟩ | ⟨_, hname⟩
    · obtain ⟨found, hfound, hmem⟩ := hstarts
      obtain rfl := Except.ok.inj hfound
      exact absurd (List.mem_singleton.mp hmem) hne
    · rw [FollowsName, if_pos rfl] at hname
      exact hname ▸ h.has_endMark _ hstart
  · obtain ⟨p, hp, rfl⟩ := List.mem_map.mp hr
    rcases hx with ⟨hne, hstarts⟩ | ⟨hempty, hname⟩
    · exact h.has_rest p hp l b xs hrhs hb x hne hstarts
    · have hne : p.name ≠ a.start := by
        intro heq
        have hupper := hg.name_isNonterminal p hp
        rw [heq, a.start_isNonterminal] at hupper
        cases hupper
      rw [FollowsName, if_neg hne] at hname
      exact h.has_name p hp l b xs hrhs hb hempty x hname

theorem canFollow_cons_of_empty {name s x : Symbol} {xs : List Symbol}
    (hs : g.first.Has s Symbol.empty) (h : g.CanFollow a name xs x) :
    g.CanFollow a name (s :: xs) x := by
  rcases h with ⟨hne, h⟩ | ⟨h, hname⟩
  · exact .inl ⟨hne, starts_cons_of_empty hs h⟩
  · exact .inr ⟨starts_cons_of_empty hs h, hname⟩

/-- In front of a row, the text that another row yields can stand for that other row. -/
theorem FirstSolved.canFollow_append (h : g.FirstSolved)
    (hempty : ∀ t ∈ g.terminals, t ≠ Symbol.empty) {name x : Symbol} {xs ys w : List Symbol}
    {ns : List Nat} (hy : Yields g xs ns w) (hys : ∀ y ∈ ys, g.Occurs y)
    (hx : g.CanFollow a name ys x) : g.CanFollow a name (xs ++ ys) (w.headD x) := by
  have hfirst : ∀ {xs ns w}, Yields g xs ns w → ∀ y ∈ xs ++ ys, y ∈ g.first := by
    intro xs ns w hy y hmem
    rcases List.mem_append.mp hmem with hmem | hmem
    · exact h.mem_first_of_yields hy y hmem
    · exact (h.mem_iff y).mpr (hys y hmem)
  induction hy with
  | nil => exact hx
  | leaf ht hxs _ =>
    exact .inl ⟨hempty _ ht, starts_cons_of_has (hfirst hxs) (h.has_self _ ht) (hempty _ ht)⟩
  | @node n p xs _ _ u v hp hrhs hxs _ ihv =>
    have hname := h.has_name p (List.mem_of_getElem? hp) _ (h.starts_of_yields hempty hrhs)
    -- If the first tree yields nothing, what comes next is what the others yield.
    cases u with
    | nil => exact canFollow_cons_of_empty hname ihv
    | cons t u =>
      have ht := hempty t (hrhs.mem_terminals t (List.mem_cons_self ..))
      exact .inl ⟨ht, starts_cons_of_has (hfirst hxs) hname ht⟩

/-! ### Computing -/

theorem find?_initialFollow (g : Grammar) (s : Symbol) :
    g.initialFollow.find? s =
      if g.start = some s then some [Symbol.endMark]
      else if s ∈ g.nonterminals then some [] else none := by
  unfold initialFollow
  dsimp only
  cases g.start with
  | none =>
    rw [Assoc.find?_foldl_insert _ fun _ => [], Assoc.find?_empty]
    rfl
  | some n =>
    rw [Assoc.find?_insert, Assoc.find?_foldl_insert _ fun _ => [], Assoc.find?_empty]
    by_cases hs : s = n
    · simp [hs]
    · have hs' : some n ≠ some s := fun h => hs (Option.some.inj h).symm
      rw [if_neg hs, if_neg hs']
      rfl

/-- The members that FOLLOW sets can have. -/
def followStock (g : Grammar) : List Symbol := g.first.values.flatten ++ [Symbol.endMark]

theorem initialFollow_within (g : Grammar) : g.initialFollow.Within g.followStock := by
  intro s l hl
  rw [find?_initialFollow] at hl
  split at hl
  · obtain rfl := Option.some.inj hl
    refine ⟨List.pairwise_singleton _ _, fun x hx => ?_⟩
    exact List.mem_append_right _ hx
  · split at hl
    · obtain rfl := Option.some.inj hl
      exact ⟨List.nodup_nil, List.nil_subset _⟩
    · cases hl

theorem mem_followInclusionsIn {c : Inclusion} {name : Symbol} {xs : List Symbol} :
    c ∈ g.followInclusionsIn name xs ↔
      ∃ l b r, xs = l ++ b :: r ∧ b ∈ g.nonterminals ∧ c ∈ followInclusionsAt g.first name b r := by
  induction xs with
  | nil => simp [followInclusionsIn]
  | cons s xs ih =>
    rw [followInclusionsIn, List.mem_append, ih]
    constructor
    · rintro (h | ⟨l, b, r, rfl, hb, hc⟩)
      · split at h
        · next hs => exact ⟨[], s, xs, rfl, hs, h⟩
        · cases h
      · exact ⟨s :: l, b, r, rfl, hb, hc⟩
    · rintro ⟨l, b, r, hxs, hb, hc⟩
      cases l with
      | nil =>
        obtain ⟨rfl, rfl⟩ := List.cons.inj hxs
        exact .inl (by rw [if_pos hb]; exact hc)
      | cons t l =>
        obtain ⟨rfl, rfl⟩ := List.cons.inj hxs
        exact .inr ⟨l, b, r, rfl, hb, hc⟩

/-- What an inclusion gives for a non-terminal on a right side: what the symbols behind it begin
with, and if these can be empty what is in the set of the name. -/
theorem exists_of_mem_followInclusions {c : Inclusion} (hc : c ∈ g.followInclusions)
    {sets : SymbolSets} {found : List Symbol} (hfound : c.source sets = .ok found) {x : Symbol}
    (hx : x ∈ found) :
    ∃ p ∈ g.productions, ∃ l r, p.rhs = l ++ c.target :: r ∧ c.target ∈ g.nonterminals ∧
      ((x ≠ Symbol.empty ∧ Starts g.first r x) ∨
        (Starts g.first r Symbol.empty ∧ sets.Has p.name x)) := by
  obtain ⟨p, hp, hc⟩ := List.mem_flatMap.mp hc
  obtain ⟨l, b, r, hrhs, hb, hc⟩ := mem_followInclusionsIn.mp hc
  rcases List.mem_cons.mp hc with rfl | hc
  · obtain ⟨row, hrow, hfound⟩ := bind_eq_ok_iff.mp hfound
    obtain rfl := Except.ok.inj hfound
    obtain ⟨hx, hne⟩ := List.mem_filter.mp hx
    exact ⟨p, hp, l, r, hrhs, hb, .inl ⟨of_decide_eq_true hne, row, hrow, hx⟩⟩
  · obtain rfl := List.mem_singleton.mp hc
    obtain ⟨row, hrow, hfound⟩ := bind_eq_ok_iff.mp hfound
    split at hfound
    · next hempty =>
      have hown := SymbolSets.get_eq_ok_iff.mp hfound
      exact ⟨p, hp, l, r, hrhs, hb, .inr ⟨⟨row, hrow, hempty⟩, found, hown, hx⟩⟩
    · obtain rfl := Except.ok.inj hfound
      cases hx

theorem followInclusions_drawsFrom (g : Grammar) :
    Inclusion.DrawsFrom g.followInclusions g.followStock := by
  intro c hc sets found hsets hfound x hx
  obtain ⟨p, _, l, r, _, _, hcases⟩ := exists_of_mem_followInclusions hc hfound hx
  rcases hcases with ⟨hne, hstarts⟩ | ⟨_, own, hown, hmem⟩
  · obtain ⟨s, _, own, hown, hmem⟩ := hstarts.eq_empty_or_has.resolve_left hne
    refine List.mem_append_left _ (List.mem_flatten_of_mem ?_ hmem)
    exact List.mem_map.mpr ⟨(s, own), Assoc.find?_eq_some_iff.mp hown, rfl⟩
  · exact (hsets _ _ hown).2 hmem

theorem mem_followInclusions {p : Production} (hp : p ∈ g.productions) {l r : List Symbol}
    {b : Symbol} (hrhs : p.rhs = l ++ b :: r) (hb : b ∈ g.nonterminals) {c : Inclusion}
    (hc : c ∈ followInclusionsAt g.first p.name b r) : c ∈ g.followInclusions :=
  List.mem_flatMap.mpr ⟨p, hp, mem_followInclusionsIn.mpr ⟨l, b, r, hrhs, hb, hc⟩⟩

/-- Sets for which all inclusions hold, and which grew from the initial ones, are a solution. -/
theorem followSolved_of_holds {sets : SymbolSets} (hgrows : g.initialFollow.Grows sets)
    (hwithin : sets.Within g.followStock) (hholds : ∀ c ∈ g.followInclusions, c.Holds sets) :
    FollowSolved { g with follow := sets } where
  has_endMark s hs := by
    refine hgrows.has ⟨[Symbol.endMark], ?_, List.mem_singleton_self _⟩
    rw [find?_initialFollow, if_pos hs]
  has_rest := by
    rintro p hp l b r hrhs hb x hx ⟨row, hrow, hmem⟩
    obtain ⟨found, hfound, hall⟩ :=
      hholds _ (mem_followInclusions (g := g) hp hrhs hb (List.mem_cons_self ..))
    obtain ⟨row', hrow', hfound⟩ := bind_eq_ok_iff.mp hfound
    obtain rfl := Except.ok.inj (hrow.symm.trans hrow')
    obtain rfl := Except.ok.inj hfound
    exact hall x (List.mem_filter.mpr ⟨hmem, decide_eq_true hx⟩)
  has_name := by
    rintro p hp l b r hrhs hb ⟨row, hrow, hmem⟩ x ⟨own, hown, hx⟩
    obtain ⟨found, hfound, hall⟩ :=
      hholds _ (mem_followInclusions (g := g) hp hrhs hb
        (List.mem_cons_of_mem _ (List.mem_singleton_self _)))
    obtain ⟨row', hrow', hfound⟩ := bind_eq_ok_iff.mp hfound
    obtain rfl := Except.ok.inj (hrow.symm.trans hrow')
    rw [if_pos hmem] at hfound
    obtain rfl := Except.ok.inj ((SymbolSets.get_eq_ok_iff.mpr hown).symm.trans hfound)
    exact hall x hx
  nodup n l hl := (hwithin n l hl).1

theorem mem_initialFollow (hg : g.Consistent) (n : Symbol) :
    n ∈ g.initialFollow ↔ n ∈ g.nonterminals := by
  rw [← Assoc.find?_isSome_iff, find?_initialFollow]
  split
  · next hstart => simp [hg.start_mem_nonterminals hstart]
  · split <;> simpa

/-- The non-terminals have sets, however many rounds there are. -/
theorem mem_of_saturate (hg : g.Consistent) {rounds : Nat} {sets : SymbolSets}
    {outcome : Except Fault Unit}
    (h : Inclusion.saturate g.followInclusions rounds g.initialFollow = (sets, outcome))
    (n : Symbol) : n ∈ sets ↔ n ∈ g.nonterminals := by
  rw [← mem_initialFollow hg, Assoc.mem_def, Assoc.mem_def,
    (Inclusion.grows_of_saturate h).keys_eq]

/-- An inclusion gives something if the symbols behind its target have a FIRST set. -/
theorem exists_source {c : Inclusion} {first : SymbolSets} {name b : Symbol} {r row : List Symbol}
    (hc : c ∈ followInclusionsAt first name b r) (hrow : firstOf first r = .ok row)
    {sets : SymbolSets} (hname : name ∈ sets) : ∃ found, c.source sets = .ok found := by
  rcases List.mem_cons.mp hc with rfl | hc
  · exact ⟨_, bind_eq_ok_iff.mpr ⟨row, hrow, rfl⟩⟩
  · obtain rfl := List.mem_singleton.mp hc
    obtain ⟨own, hown⟩ := Assoc.exists_find? hname
    have hget := SymbolSets.get_eq_ok_iff.mpr hown
    by_cases hempty : Symbol.empty ∈ row
    · exact ⟨own, bind_eq_ok_iff.mpr ⟨row, hrow, by rw [if_pos hempty, hget]⟩⟩
    · exact ⟨[], bind_eq_ok_iff.mpr ⟨row, hrow, by rw [if_neg hempty]; rfl⟩⟩

theorem target_of_mem_followInclusionsAt {c : Inclusion} {first : SymbolSets} {name b : Symbol}
    {r : List Symbol} (hc : c ∈ followInclusionsAt first name b r) : c.target = b := by
  rcases List.mem_cons.mp hc with rfl | hc
  · rfl
  · obtain rfl := List.mem_singleton.mp hc
    rfl

/-- Inclusions give something wherever every symbol that occurs has a FIRST set, and every
non-terminal a FOLLOW set. -/
theorem followInclusions_totalOn (hg : g.Consistent) (hfirst : ∀ s, g.Occurs s → s ∈ g.first)
    {keys : List Symbol} (hkeys : ∀ n ∈ g.nonterminals, n ∈ keys) :
    Inclusion.Total g.followInclusions keys := by
  intro c hc
  obtain ⟨p, hp, hc⟩ := List.mem_flatMap.mp hc
  obtain ⟨l, b, r, hrhs, hb, hc⟩ := mem_followInclusionsIn.mp hc
  obtain ⟨row, hrow⟩ : ∃ row, firstOf g.first r = .ok row :=
    exists_firstOf fun s hs => hfirst s ⟨p, hp, .inr (by simp [hrhs, hs])⟩
  refine ⟨target_of_mem_followInclusionsAt hc ▸ hkeys b hb, fun sets hsets => ?_⟩
  have hname : p.name ∈ sets.keys := hsets ▸ hkeys p.name (hg.name_mem_nonterminals hp)
  exact exists_source hc hrow (Assoc.mem_def.mpr hname)

theorem followInclusions_total (hg : g.Consistent) (hfirst : g.FirstSolved) :
    Inclusion.Total g.followInclusions g.initialFollow.keys :=
  followInclusions_totalOn hg (fun s hs => (hfirst.mem_iff s).mpr hs) fun n hn =>
    (mem_initialFollow hg n).mpr hn

theorem followRounds_suffice (hg : g.Consistent) :
    g.initialFollow.keys.length * g.followStock.length <
      g.followRounds + g.initialFollow.total := by
  have hkeys : g.initialFollow.keys.length ≤ g.nonterminals.keys.length :=
    (g.initialFollow.nodup.subperm fun s hs => (mem_initialFollow hg s).mp hs).length_le
  have hstock : g.followStock.length = g.first.size + 1 := by simp [followStock, SymbolSets.size]
  have hmul := Nat.mul_le_mul_right g.followStock.length hkeys
  rw [followRounds, ← hstock, Nat.succ_mul]
  omega

/-- FIRST sets that are there already are kept. -/
theorem computeFirst_of_first (h : g.first ≠ ∅) : g.computeFirst = (g, .ok g.first) := by
  rw [computeFirst, if_neg fun hempty => h (Assoc.isEmpty_iff.mp hempty)]

theorem computeFirst_of_firstSolved (h : g.FirstSolved) (hne : g.productions ≠ []) :
    g.computeFirst = (g, .ok g.first) := by
  obtain ⟨p, hp⟩ := List.exists_mem_of_ne_nil _ hne
  exact computeFirst_of_first (Assoc.ne_empty_of_mem ((h.mem_iff p.name).mpr ⟨p, hp, .inl rfl⟩))

/-- FOLLOW sets that are not there are computed by rounds, also those of a grammar without
productions, which has nothing to put in. -/
theorem computeFollow_eq_saturate (hg : g.Consistent) (hnone : g.follow = ∅) {first : SymbolSets}
    (hcompute : g.computeFirst = ({ g with first := first }, .ok first))
    {outcome : Except Fault Unit}
    (h : Inclusion.saturate { g with first := first }.followInclusions
      { g with first := first }.followRounds g.initialFollow = (sets, outcome)) :
    g.computeFollow =
      ({ g with first := first, follow := sets }, outcome.map fun _ => sets) := by
  rw [computeFollow, if_pos (Assoc.isEmpty_iff.mpr hnone), hcompute]
  dsimp only
  split
  · next hs =>
    have hproductions : g.productions = [] := by
      by_contra hne
      obtain ⟨s, hs'⟩ := hg.exists_start_of_ne_nil hne
      rw [show g.start = none from hs] at hs'
      cases hs'
    have hinclusions : followInclusions { g with first := first } = [] := by
      unfold followInclusions
      rw [hproductions]
      rfl
    rw [hinclusions, Inclusion.saturate_nil] at h
    obtain ⟨rfl, rfl⟩ := Prod.mk.inj h
    rfl
  · have hrounds : Inclusion.saturate { g with first := first }.followInclusions
        { g with first := first }.followRounds { g with first := first }.initialFollow =
          (sets, outcome) := h
    rw [hrounds]

/-- FOLLOW sets are computed by rounds up to the bound, which do not fail once there are FIRST
sets. -/
theorem exists_computeFollow (hg : g.Consistent) (hfirst : g.FirstSolved)
    (hne : g.productions ≠ []) (hnone : g.follow = ∅) :
    ∃ sets, g.computeFollow = ({ g with follow := sets }, .ok sets) ∧
      Inclusion.saturate g.followInclusions g.followRounds g.initialFollow = (sets, .ok ()) := by
  obtain ⟨sets, hsaturate⟩ := Inclusion.saturate_total (followInclusions_total hg hfirst)
  have hcompute := computeFirst_of_firstSolved hfirst hne
  exact ⟨sets, computeFollow_eq_saturate hg hnone hcompute hsaturate, hsaturate⟩

/-- Where nothing is computed yet, FIRST sets and then FOLLOW sets are computed by rounds without
fail. -/
theorem exists_sets (hg : g.Consistent) (hne : g.productions ≠ []) (hfirst : g.first = ∅)
    (hfollow : g.follow = ∅) :
    ∃ first follow, g.computeFirst = ({ g with first := first }, .ok first) ∧
      { g with first := first }.computeFollow =
        ({ g with first := first, follow := follow }, .ok follow) ∧
      Inclusion.saturate g.firstInclusions g.firstRounds g.initialFirst = (first, .ok ()) ∧
      Inclusion.saturate { g with first := first }.followInclusions
        { g with first := first }.followRounds g.initialFollow = (follow, .ok ()) := by
  obtain ⟨first, hcompute, hsaturate⟩ := exists_computeFirst hg hfirst
  have hsolved := firstSolved_of_saturate hg hsaturate
  obtain ⟨follow, hcompute', hrounds⟩ :=
    exists_computeFollow (hg.withSets first g.follow) hsolved hne hfollow
  exact ⟨first, follow, hcompute, hcompute', hsaturate, hrounds⟩

theorem followSolved_of_saturate (hg : g.Consistent) {sets : SymbolSets}
    (h : Inclusion.saturate g.followInclusions g.followRounds g.initialFollow = (sets, .ok ())) :
    FollowSolved { g with follow := sets } := by
  obtain ⟨hgrows, hwithin, hholds⟩ := Inclusion.saturate_ok g.followInclusions_drawsFrom
    g.initialFollow_within (followRounds_suffice hg) h
  exact followSolved_of_holds hgrows hwithin hholds

/-- Sets that are there already are kept. -/
theorem computeFollow_of_follow (h : g.follow ≠ ∅) : g.computeFollow = (g, .ok g.follow) := by
  rw [computeFollow, if_neg fun hempty => h (Assoc.isEmpty_iff.mp hempty)]

theorem computeFollow_of_followSolved (hg : g.Consistent) (h : g.FollowSolved)
    (hne : g.productions ≠ []) : g.computeFollow = (g, .ok g.follow) := by
  obtain ⟨s, hs⟩ := hg.exists_start_of_ne_nil hne
  exact computeFollow_of_follow (Assoc.ne_empty_of_mem (h.has_endMark s hs).mem)

end Grammar

end ShiftReduce
