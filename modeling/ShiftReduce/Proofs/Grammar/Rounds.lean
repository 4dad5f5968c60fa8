/-
One round over any sets.

A round reads sets that it is extending, so that a production sees what those before it added. It
may begin with any sets, and not only with those that a computation begins with. Here is what it
does to them, and what it means that it reports whether a set grew.

Which symbols have which members is a relation here, and the rules for FIRST and FOLLOW sets are
conditions on relations. The relations that meet them are closed under intersection, so there is a
least one above any sets.

* `RowStarts` — what a row of symbols begins with, by what its symbols begin with;
* `Grammar.FirstRules`, `Grammar.FollowRules` — the rules as conditions on relations;
* `isLeast_leastAbove` — the least relation above given sets that meets such conditions;
* `Inclusion.addAll`, `Inclusion.round_eq_addAll` — a round that adds one member after another and
  notes each addition, which is what a round is;
* `Inclusion.IsRound`, `Inclusion.exists_isRound` — what a round of inclusions does to sets, which
  are only extended, and only by what every relation above them has that meets the rules;
* `Grammar.rounds_exact` — rounds of the FIRST and of the FOLLOW inclusions.
-/
import Mathlib.Order.Bounds.Basic
import ShiftReduce.Proofs.Grammar.Followers

namespace ShiftReduce

variable {R R' : Symbol → Symbol → Prop} {xs : List Symbol} {x : Symbol} {sets : SymbolSets}

/-! ### Members as relations -/

/-- What a row of symbols begins with, or the mark of the empty string, if `R` says so of
symbols. -/
def RowStarts (R : Symbol → Symbol → Prop) : List Symbol → Symbol → Prop
  | [], x => x = Symbol.empty
  | s :: xs, x => (x ≠ Symbol.empty ∧ R s x) ∨ R s Symbol.empty ∧ RowStarts R xs x

theorem RowStarts.mono (hle : R ≤ R') (h : RowStarts R xs x) : RowStarts R' xs x := by
  induction xs with
  | nil => exact h
  | cons s xs ih =>
    rcases h with ⟨hx, hs⟩ | ⟨hs, hrest⟩
    · exact .inl ⟨hx, hle s x hs⟩
    · exact .inr ⟨hle s _ hs, ih hrest⟩

theorem Starts.rowStarts (h : Starts sets xs x) : RowStarts sets.Has xs x := by
  induction xs with
  | nil => exact starts_nil_iff.mp h
  | cons s xs ih =>
    rcases h.cons_cases with hs | ⟨hs, hrest⟩
    · exact .inl hs
    · exact .inr ⟨hs, ih hrest⟩

/-- Sets of symbols that are all there say of rows what is computed for them. -/
theorem starts_iff_rowStarts (hxs : ∀ s ∈ xs, s ∈ sets) :
    Starts sets xs x ↔ RowStarts sets.Has xs x := by
  refine ⟨Starts.rowStarts, fun h => ?_⟩
  induction xs with
  | nil => exact starts_nil_iff.mpr h
  | cons s xs ih =>
    have hrest : ∀ y ∈ xs, y ∈ sets := fun y hy => hxs y (List.mem_cons_of_mem s hy)
    rcases h with ⟨hx, hs⟩ | ⟨hs, h⟩
    · exact starts_cons_of_has hrest hs hx
    · exact starts_cons_of_empty hs (ih hrest h)

/-- Conditions that relations meet together if each of them does. -/
def ClosedUnderInter (Rules : (Symbol → Symbol → Prop) → Prop) : Prop :=
  ∀ P : (Symbol → Symbol → Prop) → Prop, (∀ R, P R → Rules R) → Rules fun s x => ∀ R, P R → R s x

/-- The least relation above given sets that meets conditions. -/
def LeastAbove (Rules : (Symbol → Symbol → Prop) → Prop) (sets : SymbolSets) (s x : Symbol) :
    Prop :=
  ∀ R, Rules R ∧ sets.Has ≤ R → R s x

theorem isLeast_leastAbove {Rules : (Symbol → Symbol → Prop) → Prop} (h : ClosedUnderInter Rules)
    (sets : SymbolSets) : IsLeast {R | Rules R ∧ sets.Has ≤ R} (LeastAbove Rules sets) :=
  ⟨⟨h _ fun _ hR => hR.1, fun _ _ hx _ hR => hR.2 _ _ hx⟩, fun R hR _ _ hx => hx R hR⟩

/-! ### Rounds of inclusions -/

namespace Inclusion

/-- The sets with a member added to that of `s` if it is missing there. The flag is set then, and
else it stays as it is. -/
def addMember (s : Symbol) (state : SymbolSets × Bool) (x : Symbol) :
    Except Fault (SymbolSets × Bool) := do
  let members ← SymbolSets.get state.1 s
  return if x ∈ members then state else (state.1.insert s (members ++ [x]), true)

/-- What the source of an inclusion gives, one member after another. -/
def addMembers (c : Inclusion) (state : SymbolSets × Bool) : Except Fault (SymbolSets × Bool) := do
  (← c.source state.1).foldlM (addMember c.target) state

/-- A round that adds members one after another, up to the first failure, and tells at the end
whether it added one. -/
def addAll : List Inclusion → SymbolSets × Bool → SymbolSets × Except Fault Bool
  | [], state => (state.1, .ok state.2)
  | c :: cs, state =>
    match c.addMembers state with
    | .ok state => addAll cs state
    | .error fault => (state.1, .error fault)

variable {s : Symbol} {l : List Symbol} {c : Inclusion}

theorem foldlM_addMember (hl : sets.find? s = some l) (found : List Symbol) (grew : Bool) :
    found.foldlM (addMember s) (sets, grew) =
      .ok (sets.insert s (extend l found), grew || decide (extend l found ≠ l)) := by
  induction found generalizing sets l grew with
  | nil => simp [Assoc.insert_eq_self hl, pure, Except.pure]
  | cons x found ih =>
    have hget : SymbolSets.get sets s = .ok l := SymbolSets.get_eq_ok_iff.mpr hl
    have hstep : addMember s (sets, grew) x =
        .ok (if x ∈ l then (sets, grew) else (sets.insert s (l ++ [x]), true)) := by
      rw [addMember, hget]
      rfl
    rw [List.foldlM_cons, hstep, extend]
    by_cases hx : x ∈ l
    · rw [if_pos hx, if_pos hx]
      exact ih hl grew
    · -- The list has become longer, so that it never is the old one again.
      have hlonger : extend (l ++ [x]) found ≠ l := fun heq => by
        have hle := (prefix_extend (l ++ [x]) found).length_le
        rw [heq, List.length_append, List.length_singleton] at hle
        omega
      rw [if_neg hx, if_neg hx]
      have hfind : (sets.insert s (l ++ [x])).find? s = some (l ++ [x]) := by
        rw [Assoc.find?_insert, if_pos rfl]
      have hrest := ih hfind true
      rw [Assoc.insert_insert] at hrest
      rw [decide_eq_true hlonger, Bool.or_true]
      exact hrest

/-- Sets with an extended list are larger if the list is another one. -/
theorem total_lt_insert_iff (hl : sets.find? s = some l) (found : List Symbol) :
    sets.total < (sets.insert s (extend l found)).total ↔ extend l found ≠ l := by
  have hgrows : sets.Grows (sets.insert s (extend l found)) := .insert hl (prefix_extend l found)
  constructor
  · intro hlt heq
    rw [heq, Assoc.insert_eq_self hl] at hlt
    exact Nat.lt_irrefl _ hlt
  · intro hne
    by_contra hle
    have heq := hgrows.eq_of_total_le (Nat.le_of_not_lt hle)
    rw [heq, Assoc.find?_insert, if_pos rfl] at hl
    exact hne (Option.some.inj hl)

/-- Members that come one after another make the sets of the inclusion, and the flag is set if
these are larger. -/
theorem addMembers_eq (c : Inclusion) (sets : SymbolSets) (grew : Bool) :
    c.addMembers (sets, grew) =
      (fun sets' => (sets', grew || decide (sets.total < sets'.total))) <$> c.apply sets := by
  rw [addMembers, apply]
  cases c.source sets with
  | error fault => rfl
  | ok found =>
    show found.foldlM (addMember c.target) (sets, grew) = _ <$> SymbolSets.grow sets c.target found
    cases found with
    | nil => simp [SymbolSets.grow, pure, Except.pure, Functor.map, Except.map]
    | cons x found =>
      cases hl : sets.find? c.target with
      | none =>
        have hget : SymbolSets.get sets c.target = .error (.missingSymbol c.target) := by
          rw [SymbolSets.get, hl]
        rw [List.foldlM_cons, addMember, SymbolSets.grow, hget]
        rfl
      | some l =>
        have hget : SymbolSets.get sets c.target = .ok l := SymbolSets.get_eq_ok_iff.mpr hl
        rw [foldlM_addMember hl, ← decide_eq_decide.mpr (total_lt_insert_iff hl (x :: found)),
          SymbolSets.grow, hget]
        rfl

theorem addAll_eq (cs : List Inclusion) (sets : SymbolSets) (grew : Bool) :
    addAll cs (sets, grew) = ((applyAll cs sets).1, (applyAll cs sets).2.map fun _ =>
      grew || decide (sets.total < (applyAll cs sets).1.total)) := by
  induction cs generalizing sets grew with
  | nil => simp [addAll, applyAll, Except.map]
  | cons c cs ih =>
    rw [addAll, applyAll, addMembers_eq]
    cases happly : c.apply sets with
    | error fault => rfl
    | ok reached =>
      show addAll cs (reached, _) = _
      rw [ih]
      -- Sets only grow, so that they are larger at the end if they were at any time.
      have hfirst : sets.total ≤ reached.total := (grows_of_apply happly).total_le
      have hall : applyAll cs reached = ((applyAll cs reached).1, (applyAll cs reached).2) := rfl
      have hrest : reached.total ≤ (applyAll cs reached).1.total :=
        (grows_of_applyAll hall).total_le
      have hflag : (decide (sets.total < reached.total) ||
          decide (reached.total < (applyAll cs reached).1.total)) =
            decide (sets.total < (applyAll cs reached).1.total) := by
        rw [← Bool.decide_or]
        exact decide_eq_decide.mpr (by omega)
      rw [Bool.or_assoc, hflag]

/-- That a round compares the sizes of the sets tells the same as a note of each addition. -/
theorem round_eq_addAll (cs : List Inclusion) (sets : SymbolSets) :
    round cs sets = addAll cs (sets, false) := by
  rw [addAll_eq, Bool.false_or]
  rfl

/-- What a round does to sets, where `Rules` says whether all inclusions hold. -/
structure IsRound (Rules : (Symbol → Symbol → Prop) → Prop) (sets sets' : SymbolSets)
    (grew : Bool) : Prop where
  keys_eq : sets'.keys = sets.keys
  /-- Every old list is the beginning of the new one, which repeats nothing if the old one does
  not. -/
  extends_list : ∀ s l, sets.find? s = some l →
    ∃ l', sets'.find? s = some l' ∧ l <+: l' ∧ (l.Nodup → l'.Nodup)
  /-- What is added is asked for by the rules. -/
  justified : ∃ least, IsLeast {R | Rules R ∧ sets.Has ≤ R} least ∧
    ∀ s x, sets'.Has s x → least s x
  grew_iff : grew = true ↔ ∃ s, sets'.find? s ≠ sets.find? s
  rests_iff : grew = false ↔ Rules sets.Has

variable {cs : List Inclusion} {sets' : SymbolSets} {Rules : (Symbol → Symbol → Prop) → Prop}

/-- Sources give nothing but what every relation has that meets the rules and is above the sets. -/
def Respects (cs : List Inclusion) (Rules : (Symbol → Symbol → Prop) → Prop) : Prop :=
  ∀ c ∈ cs, ∀ R, Rules R → ∀ (sets : SymbolSets) found, sets.Has ≤ R →
    c.source sets = .ok found → ∀ x ∈ found, R c.target x

/-- One inclusion stays below a relation that meets the rules, and so do all of them. -/
theorem has_le_of_applyAll (hrules : Respects cs Rules) (hR : Rules R) (hle : sets.Has ≤ R)
    {outcome : Except Fault Unit} (h : applyAll cs sets = (sets', outcome)) : sets'.Has ≤ R := by
  refine applyAll_induction (I := fun sets => sets.Has ≤ R) (fun c hc sets sets' hle happly => ?_)
    h hle
  intro s x hx
  rcases has_of_apply happly hx with hold | ⟨rfl, found, hfound, hmem⟩
  · exact hle s x hold
  · exact hrules c hc R hR sets found hle hfound x hmem

theorem extends_of_applyAll {outcome : Except Fault Unit} (h : applyAll cs sets = (sets', outcome))
    {s : Symbol} {l : List Symbol} (hl : sets.find? s = some l) :
    ∃ l', sets'.find? s = some l' ∧ l <+: l' ∧ (l.Nodup → l'.Nodup) := by
  obtain ⟨l', hl', hbegin⟩ := (grows_of_applyAll h).exists_find? hl
  refine ⟨l', hl', hbegin, fun hnodup => ?_⟩
  refine applyAll_induction (I := fun sets => ∀ l, sets.find? s = some l → l.Nodup)
    (fun _ _ _ _ hs happly => nodup_of_apply happly hs) h (fun k hk => ?_) l' hl'
  obtain rfl := Option.some.inj (hl.symm.trans hk)
  exact hnodup

/-- Sets grow if and only if the list of some symbol does. -/
theorem total_lt_iff_of_grows (h : sets.Grows sets') :
    sets.total < sets'.total ↔ ∃ s, sets'.find? s ≠ sets.find? s := by
  constructor
  · intro hlt
    by_contra hsame
    have heq : sets' = sets :=
      Assoc.ext_find? h.keys_eq.symm fun s => not_not.mp fun hne => hsame ⟨s, hne⟩
    rw [heq] at hlt
    exact Nat.lt_irrefl _ hlt
  · rintro ⟨s, hne⟩
    by_contra hle
    obtain rfl := h.eq_of_total_le (Nat.le_of_not_lt hle)
    exact hne rfl

/-- Sets do not grow in a round if and only if all inclusions hold of them. -/
theorem not_total_lt_iff_of_applyAll (h : applyAll cs sets = (sets', .ok ())) :
    ¬sets.total < sets'.total ↔ ∀ c ∈ cs, c.Holds sets := by
  constructor
  · intro hle
    obtain rfl := (grows_of_applyAll h).eq_of_total_le (Nat.le_of_not_lt hle)
    exact fun c hc => holds_of_apply_eq (apply_eq_of_applyAll h c hc)
  · intro hholds
    obtain rfl := (Prod.mk.inj ((applyAll_eq_of_holds hholds).symm.trans h)).1
    exact Nat.lt_irrefl _

/-- A round over sets of all symbols that are looked up does not fail, and does what a round has to
do. -/
theorem exists_isRound (htotal : Total cs sets.keys) (hinter : ClosedUnderInter Rules)
    (hrules : Respects cs Rules) (hholds : (∀ c ∈ cs, c.Holds sets) ↔ Rules sets.Has) :
    ∃ sets' grew, round cs sets = (sets', .ok grew) ∧ IsRound Rules sets sets' grew := by
  obtain ⟨sets', hall⟩ := applyAll_total htotal
  have hround : round cs sets = (sets', .ok (decide (sets.total < sets'.total))) := by
    rw [round, hall]
    rfl
  have hgrows := grows_of_applyAll hall
  have hleast := isLeast_leastAbove hinter sets
  refine ⟨sets', _, hround, hgrows.keys_eq.symm, fun s l hl => extends_of_applyAll hall hl,
    ⟨_, hleast, has_le_of_applyAll hrules hleast.1.1 hleast.1.2 hall⟩, ?_, ?_⟩
  · rw [decide_eq_true_iff, total_lt_iff_of_grows hgrows]
  · rw [decide_eq_false_iff_not, not_total_lt_iff_of_applyAll hall, hholds]

end Inclusion

/-! ### The rules for FIRST sets -/

namespace Grammar

variable {g : Grammar}

/-- A name begins with what its right sides begin with. -/
def FirstRules (g : Grammar) (R : Symbol → Symbol → Prop) : Prop :=
  ∀ p ∈ g.productions, ∀ x, RowStarts R p.rhs x → R p.name x

theorem firstRules_closed (g : Grammar) : ClosedUnderInter g.FirstRules :=
  fun _ hP p hp x hx R hR => hP R hR p hp x (hx.mono fun _ _ h => h R hR)

theorem firstInclusions_respect (hg : g.Consistent) :
    Inclusion.Respects g.firstInclusions g.FirstRules := by
  intro c hc R hR sets found hle hfound x hx
  obtain ⟨p, hp, rfl⟩ := (mem_firstInclusions_iff hg).mp hc
  have hstarts : Starts sets p.rhs x := ⟨found, hfound, hx⟩
  exact hR p hp x (hstarts.rowStarts.mono hle)

theorem firstInclusions_hold_iff (hg : g.Consistent) (hkeys : ∀ s, g.Occurs s → s ∈ sets) :
    (∀ c ∈ g.firstInclusions, c.Holds sets) ↔ g.FirstRules sets.Has := by
  have hrhs : ∀ p ∈ g.productions, ∀ s ∈ p.rhs, s ∈ sets := fun p hp s hs =>
    hkeys s ⟨p, hp, .inr hs⟩
  constructor
  · intro h p hp x hx
    obtain ⟨found, hfound, hall⟩ := h _ ((mem_firstInclusions_iff hg).mpr ⟨p, hp, rfl⟩)
    have hstarts : Starts sets p.rhs x := (starts_iff_rowStarts (hrhs p hp)).mpr hx
    exact hall x ((starts_iff_of_firstOf hfound).mp hstarts)
  · intro h c hc
    obtain ⟨p, hp, rfl⟩ := (mem_firstInclusions_iff hg).mp hc
    obtain ⟨found, hfound⟩ := exists_firstOf (hrhs p hp)
    exact ⟨found, hfound, fun x hx => h p hp x (Starts.rowStarts ⟨found, hfound, hx⟩)⟩

/-! ### The rules for FOLLOW sets -/

/-- A non-terminal on a right side is followed by what the symbols behind it begin with, as `F`
says, and if these can be empty by what follows the name. -/
def FollowRules (g : Grammar) (F R : Symbol → Symbol → Prop) : Prop :=
  ∀ p ∈ g.productions, ∀ l b r, p.rhs = l ++ b :: r → b ∈ g.nonterminals →
    (∀ x, x ≠ Symbol.empty → RowStarts F r x → R b x) ∧
      (RowStarts F r Symbol.empty → ∀ x, R p.name x → R b x)

theorem followRules_closed (g : Grammar) (F : Symbol → Symbol → Prop) :
    ClosedUnderInter (g.FollowRules F) := by
  intro P hP p hp l b r hrhs hb
  refine ⟨fun x hx hstarts R hR => ?_, fun hempty x hname R hR => ?_⟩
  · exact (hP R hR p hp l b r hrhs hb).1 x hx hstarts
  · exact (hP R hR p hp l b r hrhs hb).2 hempty x (hname R hR)

theorem followInclusions_respect (g : Grammar) :
    Inclusion.Respects g.followInclusions (g.FollowRules g.first.Has) := by
  intro c hc R hR sets found hle hfound x hx
  obtain ⟨p, hp, l, r, hrhs, hb, hcases⟩ := exists_of_mem_followInclusions hc hfound hx
  obtain ⟨hrest, hname⟩ := hR p hp l c.target r hrhs hb
  rcases hcases with ⟨hx, hstarts⟩ | ⟨hempty, hown⟩
  · exact hrest x hx hstarts.rowStarts
  · exact hname hempty.rowStarts x (hle _ _ hown)

/-- When the two inclusions for a non-terminal on a right side hold. -/
theorem followInclusionsAt_hold_iff {first : SymbolSets} {name b : Symbol} {r row : List Symbol}
    (hrow : firstOf first r = .ok row) (hname : name ∈ sets) :
    (∀ c ∈ followInclusionsAt first name b r, c.Holds sets) ↔
      (∀ x, x ≠ Symbol.empty → x ∈ row → sets.Has b x) ∧
        (Symbol.empty ∈ row → ∀ x, sets.Has name x → sets.Has b x) := by
  obtain ⟨own, hown⟩ := Assoc.exists_find? hname
  have hget := SymbolSets.get_eq_ok_iff.mpr hown
  rw [followInclusionsAt, List.forall_mem_cons, List.forall_mem_singleton]
  refine and_congr ⟨?_, fun h => ?_⟩ ⟨?_, fun h => ?_⟩
  · rintro ⟨found, hfound, hall⟩ x hx hmem
    obtain ⟨row', hrow', hfound⟩ := bind_eq_ok_iff.mp hfound
    obtain rfl := Except.ok.inj (hrow.symm.trans hrow')
    obtain rfl := Except.ok.inj hfound
    exact hall x (List.mem_filter.mpr ⟨hmem, decide_eq_true hx⟩)
  · refine ⟨_, bind_eq_ok_iff.mpr ⟨row, hrow, rfl⟩, fun x hx => ?_⟩
    obtain ⟨hmem, hne⟩ := List.mem_filter.mp hx
    exact h x (of_decide_eq_true hne) hmem
  · rintro ⟨found, hfound, hall⟩ hempty x hx
    obtain ⟨row', hrow', hfound⟩ := bind_eq_ok_iff.mp hfound
    obtain rfl := Except.ok.inj (hrow.symm.trans hrow')
    rw [if_pos hempty, hget] at hfound
    obtain rfl := Except.ok.inj hfound
    exact hall x ((Assoc.has_iff_of_find? hown).mp hx)
  · by_cases hempty : Symbol.empty ∈ row
    · refine ⟨own, bind_eq_ok_iff.mpr ⟨row, hrow, by rw [if_pos hempty, hget]⟩, fun x hx => ?_⟩
      exact h hempty x ⟨own, hown, hx⟩
    · refine ⟨[], bind_eq_ok_iff.mpr ⟨row, hrow, by rw [if_neg hempty]; rfl⟩, ?_⟩
      exact fun x hx => absurd hx List.not_mem_nil

theorem followInclusions_hold_iff (hg : g.Consistent) (hfirst : ∀ s, g.Occurs s → s ∈ g.first)
    (hkeys : ∀ n ∈ g.nonterminals, n ∈ sets) :
    (∀ c ∈ g.followInclusions, c.Holds sets) ↔ g.FollowRules g.first.Has sets.Has := by
  -- Both sides speak of one occurrence of a non-terminal after the other.
  have hone : ∀ p ∈ g.productions, ∀ l b r, p.rhs = l ++ b :: r →
      ((∀ c ∈ followInclusionsAt g.first p.name b r, c.Holds sets) ↔
        (∀ x, x ≠ Symbol.empty → RowStarts g.first.Has r x → sets.Has b x) ∧
          (RowStarts g.first.Has r Symbol.empty → ∀ x, sets.Has p.name x → sets.Has b x)) := by
    intro p hp l b r hrhs
    have hrow : ∀ s ∈ r, s ∈ g.first := fun s hs => hfirst s ⟨p, hp, .inr (by simp [hrhs, hs])⟩
    obtain ⟨row, hfound⟩ := exists_firstOf hrow
    have hname := hkeys p.name (hg.name_mem_nonterminals hp)
    simp only [followInclusionsAt_hold_iff hfound hname, ← starts_iff_rowStarts hrow,
      starts_iff_of_firstOf hfound]
  constructor
  · intro h p hp l b r hrhs hb
    exact (hone p hp l b r hrhs).mp fun c hc => h c (mem_followInclusions hp hrhs hb hc)
  · intro h c hc
    obtain ⟨p, hp, hc⟩ := List.mem_flatMap.mp hc
    obtain ⟨l, b, r, hrhs, hb, hc⟩ := mem_followInclusionsIn.mp hc
    exact (hone p hp l b r hrhs).mpr (h p hp l b r hrhs hb) c hc

/-! ### Rounds over any sets -/

/-- Rounds over FIRST sets of all symbols, and over FOLLOW sets of all non-terminals, whatever these
hold: they do not fail, they only extend the sets by what the rules ask for, and they report just
whether they extend one, which they do unless all rules hold. -/
theorem rounds_exact {rs : List Rule} (hrules : addRules rs = .ok g) {first : SymbolSets}
    (hfirst : ∀ s ∈ g.symbols, s ∈ first) (follow : SymbolSets) :
    (∃ sets grew, firstRound { g with first := first, follow := follow } =
        ({ g with first := sets, follow := follow }, .ok grew) ∧
      Inclusion.IsRound g.FirstRules first sets grew) ∧
    ((∀ n ∈ g.nonterminals, n ∈ follow) →
      ∃ sets grew, followRound { g with first := first, follow := follow } =
          ({ g with first := first, follow := sets }, .ok grew) ∧
        Inclusion.IsRound (g.FollowRules first.Has) follow sets grew) := by
  have hg := consistent_of_addRules hrules
  have hg' := hg.withSets first follow
  have hkeys : ∀ s, g.Occurs s → s ∈ first := fun s hs => hfirst s (hg.mem_symbols_iff.mpr hs)
  refine ⟨?_, fun hfollow => ?_⟩
  · obtain ⟨sets, grew, hround, his⟩ := Inclusion.exists_isRound
      (firstInclusions_totalOn hg hkeys) (firstRules_closed g) (firstInclusions_respect hg)
      (firstInclusions_hold_iff hg hkeys)
    refine ⟨sets, grew, ?_, his⟩
    have hround' : Inclusion.round
        (firstInclusions { g with first := first, follow := follow }) first = (sets, .ok grew) :=
      hround
    rw [firstRound, hround']
  · obtain ⟨sets, grew, hround, his⟩ := Inclusion.exists_isRound
      (followInclusions_totalOn hg' hkeys hfollow) (followRules_closed _ _)
      (followInclusions_respect _) (followInclusions_hold_iff hg' hkeys hfollow)
    refine ⟨sets, grew, ?_, his⟩
    rw [followRound, hround]

/-- Rules with a name that can be empty and one that embeds itself. -/
def nestedRules : List Rule := [⟨"S", ["A", "S", "b"]⟩, ⟨"S", ["c"]⟩, ⟨"A", []⟩, ⟨"A", ["a", "A"]⟩]

/-- FIRST sets that no computation passes through: `A` has the terminal `b`, which no rule asks for,
and lacks what can be seen at once. -/
def strayFirst : SymbolSets :=
  [("S", []), ("A", ["b"]), ("a", ["a"]), ("b", ["b"]), ("c", ["c"])].foldl
    (fun sets e => sets.insert e.1 e.2) ∅

/-- FOLLOW sets without the end of the input. -/
def strayFollow : SymbolSets := ((∅ : SymbolSets).insert "S" ["c"]).insert "A" []

/-- Both rounds over these sets. -/
theorem rounds_exact_nestedRules :
    addRules nestedRules = .ok (ofRules nestedRules) ∧
      (∀ s ∈ (ofRules nestedRules).symbols, s ∈ strayFirst) ∧
      (∀ n ∈ (ofRules nestedRules).nonterminals.keys, n ∈ strayFollow) ∧
      (∃ sets grew,
        firstRound { ofRules nestedRules with first := strayFirst, follow := strayFollow } =
          ({ ofRules nestedRules with first := sets, follow := strayFollow }, .ok grew) ∧
        Inclusion.IsRound (ofRules nestedRules).FirstRules strayFirst sets grew) ∧
      ∃ sets grew,
        followRound { ofRules nestedRules with first := strayFirst, follow := strayFollow } =
          ({ ofRules nestedRules with first := strayFirst, follow := sets }, .ok grew) ∧
        Inclusion.IsRound ((ofRules nestedRules).FollowRules strayFirst.Has) strayFollow sets
          grew := by
  have hrules : addRules nestedRules = .ok (ofRules nestedRules) := rfl
  have hfirst : ∀ s ∈ (ofRules nestedRules).symbols, s ∈ strayFirst := by decide
  have hfollow : ∀ n ∈ (ofRules nestedRules).nonterminals.keys, n ∈ strayFollow := by decide
  obtain ⟨hfirsts, hfollows⟩ := rounds_exact hrules hfirst strayFollow
  exact ⟨hrules, hfirst, hfollow, hfirsts, hfollows hfollow⟩

end Grammar

end ShiftReduce
