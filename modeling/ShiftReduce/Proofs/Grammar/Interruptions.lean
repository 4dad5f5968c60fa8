/-
FOLLOW sets that could not be finished.

FIRST and FOLLOW sets are computed once and then kept, and rules may be added in between. A symbol
that came in later has no FIRST set, and where the FOLLOW sets need it their computation fails. What
was computed until then stays, and from then on it counts as the FOLLOW sets: every later call gives
it without fail, although it may lack members.

* `Lacks`, `firstOf_eq_error_iff` — rows of symbols without a FIRST set;
* `Grammar.Call`, `Grammar.callAll` — what is asked of a grammar, and the grammar after calls;
* `Grammar.call_cases` — what one call can change;
* `Grammar.sound_callAll` — FIRST sets hold nothing wrong, however old they are;
* `Grammar.Stops`, `Grammar.exists_stop_of_saturate`, `Grammar.not_stops_of_saturate` — symbols at
  which rounds stop;
* `Grammar.computeFollow_fails_iff`, `Grammar.followSolved_of_computeFollow` — how a computation of
  FOLLOW sets ends;
* `Grammar.Unfinished` — what a failure leaves behind;
* `Grammar.computeFollow_interrupted` — when computations fail, and what is there afterwards.
-/
import ShiftReduce.Proofs.Grammar.Indexes
import ShiftReduce.Proofs.Grammar.Pruning

namespace ShiftReduce

/-! ### Rows without a FIRST set -/

section Rows

variable {sets : SymbolSets} {s t : Symbol} {xs : List Symbol}

/-- A symbol has no set, and the symbols before it in a row can be empty, so that it is looked
up. -/
def Lacks (sets : SymbolSets) (xs : List Symbol) (s : Symbol) : Prop :=
  s ∉ sets ∧ ∃ before behind, xs = before ++ s :: behind ∧
    ∀ y ∈ before, sets.Has y Symbol.empty

theorem lacks_cons_iff :
    Lacks sets (s :: xs) t ↔ (t = s ∧ s ∉ sets) ∨ (sets.Has s Symbol.empty ∧ Lacks sets xs t) := by
  constructor
  · rintro ⟨hout, before, behind, hrow, hbefore⟩
    cases before with
    | nil =>
      obtain ⟨rfl, rfl⟩ := List.cons.inj hrow
      exact .inl ⟨rfl, hout⟩
    | cons y before =>
      obtain ⟨rfl, rfl⟩ := List.cons.inj hrow
      obtain ⟨hy, hbefore⟩ := List.forall_mem_cons.mp hbefore
      exact .inr ⟨hy, hout, before, behind, rfl, hbefore⟩
  · rintro (⟨rfl, hout⟩ | ⟨hs, hout, before, behind, rfl, hbefore⟩)
    · exact ⟨hout, [], xs, rfl, List.forall_mem_nil _⟩
    · exact ⟨hout, s :: before, behind, rfl, List.forall_mem_cons.mpr ⟨hs, hbefore⟩⟩

/-- The FIRST set of a row fails at the first symbol that is looked up in vain. -/
theorem firstOf_eq_error_iff {fault : Fault} :
    firstOf sets xs = .error fault ↔ ∃ s, fault = .missingSymbol s ∧ Lacks sets xs s := by
  induction xs with
  | nil =>
    constructor
    · intro h
      cases h
    · rintro ⟨s, _, _, before, behind, hrow, _⟩
      exact absurd hrow (by simp)
  | cons s xs ih =>
    simp only [lacks_cons_iff]
    cases hown : sets.find? s with
    | none =>
      have hout : s ∉ sets := Assoc.find?_eq_none_iff.mp hown
      have hnone : ¬sets.Has s Symbol.empty := fun h => hout h.mem
      have hfirst : firstOf sets (s :: xs) = .error (.missingSymbol s) := by
        rw [firstOf, SymbolSets.get, hown]
        rfl
      simp [hfirst, hout, hnone, eq_comm]
    | some own =>
      have hin : s ∈ sets := Assoc.mem_of_find? hown
      rw [firstOf, SymbolSets.get_eq_ok_iff.mpr hown]
      by_cases hempty : Symbol.empty ∈ own
      · have hs : sets.Has s Symbol.empty := ⟨own, hown, hempty⟩
        simp only [hin, hs, not_true, and_false, false_or, true_and, ← ih]
        simp only [bind, Except.bind, if_pos hempty]
        cases firstOf sets xs <;> simp [pure, Except.pure]
      · have hs : ¬sets.Has s Symbol.empty := fun h => hempty ((Assoc.has_iff_of_find? hown).mp h)
        simp [bind, Except.bind, pure, Except.pure, hempty, hin, hs]

end Rows

namespace Grammar

variable {g g' : Grammar} {s x : Symbol} {xs : List Symbol} {fault : Fault} {sets : SymbolSets}

/-! ### Calls -/

/-- What a grammar is asked to do. -/
inductive Call where
  /-- To take one more rule. -/
  | add (r : Rule)
  /-- To compute FIRST sets. -/
  | first
  /-- To compute FOLLOW sets. -/
  | follow
  deriving DecidableEq

/-- The grammar after a call, whether or not the call fails. -/
def call (g : Grammar) : Call → Grammar
  | .add r => g.attempt r
  | .first => g.computeFirst.1
  | .follow => g.computeFollow.1

/-- The grammar after calls, in order. -/
def callAll (g : Grammar) (calls : List Call) : Grammar := calls.foldl call g

theorem callAll_concat (g : Grammar) (calls : List Call) (c : Call) :
    g.callAll (calls ++ [c]) = (g.callAll calls).call c := List.foldl_append

/-- Only the sets change, and sets that are there already do not. -/
structure Solves (g g' : Grammar) : Prop where
  eq_withSets : g' = { g with first := g'.first, follow := g'.follow }
  first_eq : g'.first = g.first ∨ g.first = ∅ ∧
    g'.first = (Inclusion.saturate g.firstInclusions g.firstRounds g.initialFirst).1
  follow_eq : g.follow ≠ ∅ → g'.follow = g.follow

theorem Solves.refl (g : Grammar) : Solves g g := ⟨rfl, .inl rfl, fun _ => rfl⟩

theorem solves_computeFirst (g : Grammar) : Solves g g.computeFirst.1 := by
  unfold computeFirst
  split
  · next hempty => exact ⟨rfl, .inr ⟨Assoc.isEmpty_iff.mp hempty, rfl⟩, fun _ => rfl⟩
  · exact .refl g

theorem solves_computeFollow (g : Grammar) : Solves g g.computeFollow.1 := by
  have hfirst := solves_computeFirst g
  unfold computeFollow
  split
  · next hempty =>
    have hnone := Assoc.isEmpty_iff.mp hempty
    split
    · next hcompute =>
      rw [hcompute] at hfirst
      exact hfirst
    · next g₁ _ hcompute =>
      rw [hcompute] at hfirst
      obtain ⟨heq, hcases, _⟩ := hfirst
      -- Whatever FOLLOW sets come out, the rest is as it was with the FIRST sets alone.
      have hwith : ∀ sets, Solves g { g₁ with follow := sets } := fun sets =>
        ⟨congrArg (fun g : Grammar => { g with follow := sets }) heq, hcases,
          fun hne => absurd hnone hne⟩
      split
      · exact hwith _
      · exact hwith _
  · exact .refl g

/-- A call takes a rule, or it changes nothing but sets. -/
theorem call_cases (g : Grammar) (c : Call) :
    (∃ r, c = .add r ∧ r.name.isNonterminal = true ∧ g.call c = g.push r) ∨
      Solves g (g.call c) := by
  cases c with
  | add r =>
    rw [call, attempt_eq]
    split
    · next hname => exact .inl ⟨r, rfl, hname, rfl⟩
    · exact .inr (.refl g)
  | first => exact .inr (solves_computeFirst g)
  | follow => exact .inr (solves_computeFollow g)

theorem Solves.consistent (h : Solves g g') (hg : g.Consistent) : g'.Consistent := by
  rw [h.eq_withSets]
  exact hg.withSets g'.first g'.follow

theorem Solves.rules_eq (h : Solves g g') : g'.rules = g.rules := by
  rw [h.eq_withSets]
  rfl

theorem Consistent.call (hg : g.Consistent) (c : Call) : (g.call c).Consistent := by
  rcases call_cases g c with ⟨r, _, hname, heq⟩ | hsolves
  · exact heq ▸ hg.push hname
  · exact hsolves.consistent hg

theorem consistent_callAll (calls : List Call) : (callAll ∅ calls).Consistent := by
  induction calls using List.reverseRecOn with
  | nil => exact .empty
  | append_singleton calls c ih =>
    rw [callAll_concat]
    exact ih.call c

theorem mem_rules_callAll {calls : List Call} {r : Rule} (hr : r ∈ (callAll ∅ calls).rules) :
    .add r ∈ calls := by
  induction calls using List.reverseRecOn with
  | nil => cases hr
  | append_singleton calls c ih =>
    rw [callAll_concat] at hr
    rcases call_cases (callAll ∅ calls) c with ⟨q, rfl, _, heq⟩ | hsolves
    · rw [heq, rules_push, List.mem_append, List.mem_singleton] at hr
      rcases hr with hr | rfl
      · exact List.mem_append_left _ (ih hr)
      · exact List.mem_append_right _ (List.mem_singleton_self _)
    · rw [hsolves.rules_eq] at hr
      exact List.mem_append_left _ (ih hr)

/-! ### FIRST sets of fewer rules -/

theorem Solves.begins_iff (h : Solves g g') : g'.Begins xs x ↔ g.Begins xs x := by
  rw [h.eq_withSets]
  exact Iff.rfl

/-- One more rule takes nothing away. -/
theorem Begins.push (hg : g.Consistent) {r : Rule} (hr : r.name.isNonterminal = true)
    (h : g.Begins xs x) : (g.push r).Begins xs x := by
  have hrules : ∀ q ∈ g.rules, q ∈ (g.push r).rules := fun q hq => by
    rw [rules_push]
    exact List.mem_append_left _ hq
  rcases h with ⟨hx, hd⟩ | ⟨ht, rest, hd⟩
  · exact .inl ⟨hx, hd.mono hrules⟩
  · obtain ⟨hclass, hoccurs⟩ := hg.mem_terminals_iff.mp ht
    have hoccurs' : (g.push r).Occurs x := Consistent.occurs_push_iff.mpr (.inl hoccurs)
    have ht' := (hg.push hr).mem_terminals_iff.mpr ⟨hclass, hoccurs'⟩
    exact .inr ⟨ht', rest, hd.mono hrules⟩

/-- FIRST sets that hold nothing wrong still do so after a call. -/
theorem begins_call (hg : g.Consistent) {c : Call} (hempty : Symbol.empty ∉ (g.call c).terminals)
    (hsets : ∀ s x, g.first.Has s x → g.Begins [s] x) :
    ∀ s x, (g.call c).first.Has s x → (g.call c).Begins [s] x := by
  intro s x hx
  rcases call_cases g c with ⟨r, _, hname, heq⟩ | hsolves
  · rw [heq] at hx ⊢
    rw [congrArg first (push_eq g r)] at hx
    exact (hsets s x hx).push hg hname
  · rw [hsolves.begins_iff]
    rcases hsolves.first_eq with hsame | ⟨_, hcomputed⟩
    · exact hsets s x (hsame ▸ hx)
    · have hterminals : Symbol.empty ∉ g.terminals := by
        rwa [congrArg terminals hsolves.eq_withSets] at hempty
      exact begins_of_saturate hg hterminals rfl s x (hcomputed ▸ hx)

theorem empty_not_mem_callAll {calls : List Call}
    (hempty : ∀ r, .add r ∈ calls → Symbol.empty ∉ r.rhs) :
    Symbol.empty ∉ (callAll ∅ calls).terminals := by
  intro ht
  obtain ⟨p, hp, hrhs⟩ := (consistent_callAll calls).exists_mem_rhs ht
  exact hempty p.toRule (mem_rules_callAll (List.mem_map_of_mem hp)) hrhs

theorem begins_callAll {calls : List Call}
    (hempty : ∀ r, .add r ∈ calls → Symbol.empty ∉ r.rhs) :
    ∀ s x, (callAll ∅ calls).first.Has s x → (callAll ∅ calls).Begins [s] x := by
  induction calls using List.reverseRecOn with
  | nil =>
    rintro s x ⟨l, hl, _⟩
    cases hl
  | append_singleton calls c ih =>
    have hnone := empty_not_mem_callAll hempty
    rw [callAll_concat] at hnone ⊢
    exact begins_call (consistent_callAll calls) hnone
      (ih fun r hr => hempty r (List.mem_append_left _ hr))

/-- FOLLOW sets that rounds lead to hold nothing wrong, however old the FIRST sets are and whether
or not the rounds fail. -/
theorem sound_callAll {calls : List Call}
    (hempty : ∀ r, .add r ∈ calls → Symbol.empty ∉ r.rhs) {rounds : Nat}
    {outcome : Except Fault Unit}
    (h : Inclusion.saturate (callAll ∅ calls).followInclusions rounds
      (callAll ∅ calls).initialFollow = (sets, outcome)) :
    Sound { callAll ∅ calls with follow := sets } where
  consistent := (consistent_callAll calls).withSets _ sets
  empty_not_mem := empty_not_mem_callAll hempty
  least :=
    { begins := begins_callAll hempty
      mem_follow_iff := mem_of_saturate (consistent_callAll calls) h
      induction := fun _ start rest name =>
        follow_induction (g := callAll ∅ calls) start rest name h }

/-! ### Where FOLLOW sets stop -/

/-- A symbol without a FIRST set that is looked up behind a non-terminal on a right side. -/
def Stops (g : Grammar) (s : Symbol) : Prop :=
  ∃ p ∈ g.productions, ∃ l n r, p.rhs = l ++ n :: r ∧ n ∈ g.nonterminals ∧ Lacks g.first r s

theorem source_eq_error {c : Inclusion} {first : SymbolSets} {name n : Symbol} {r : List Symbol}
    (hc : c ∈ followInclusionsAt first name n r) (hrow : firstOf first r = .error fault)
    (sets : SymbolSets) : c.source sets = .error fault := by
  rcases List.mem_cons.mp hc with rfl | hc
  · simp only [hrow]
    rfl
  · obtain rfl := List.mem_singleton.mp hc
    simp only [hrow]
    rfl

/-- An inclusion fails only at a symbol without a FIRST set, as names and targets have sets. -/
theorem exists_stop_of_apply (hg : g.Consistent) {c : Inclusion} (hc : c ∈ g.followInclusions)
    (hkeys : ∀ n ∈ g.nonterminals, n ∈ sets) (h : c.apply sets = .error fault) :
    ∃ s, fault = .missingSymbol s ∧ g.Stops s := by
  obtain ⟨p, hp, hc⟩ := List.mem_flatMap.mp hc
  obtain ⟨l, n, r, hrhs, hn, hc⟩ := mem_followInclusionsIn.mp hc
  cases hrow : firstOf g.first r with
  | error fault' =>
    rw [Inclusion.apply, source_eq_error hc hrow] at h
    obtain rfl := Except.error.inj h
    obtain ⟨s, hfault, hlacks⟩ := firstOf_eq_error_iff.mp hrow
    exact ⟨s, hfault, p, hp, l, n, r, hrhs, hn, hlacks⟩
  | ok row =>
    have htarget : c.target ∈ sets := target_of_mem_followInclusionsAt hc ▸ hkeys n hn
    obtain ⟨found, hfound⟩ := exists_source hc hrow (hkeys p.name (hg.name_mem_nonterminals hp))
    obtain ⟨reached, happly⟩ := Inclusion.exists_apply htarget hfound
    rw [happly] at h
    cases h

theorem exists_stop_of_saturate (hg : g.Consistent) {rounds : Nat}
    (h : Inclusion.saturate g.followInclusions rounds g.initialFollow = (sets, .error fault)) :
    ∃ s, fault = .missingSymbol s ∧ g.Stops s := by
  obtain ⟨c, hc, before, hgrows, hfails⟩ := Inclusion.exists_of_saturate_error h
  refine exists_stop_of_apply hg hc (fun n hn => ?_) hfails
  rw [Assoc.mem_def, ← hgrows.keys_eq, ← Assoc.mem_def]
  exact (mem_initialFollow hg n).mpr hn

/-- Rounds up to the bound come to every inclusion. -/
theorem not_stops_of_saturate (hg : g.Consistent)
    (h : Inclusion.saturate g.followInclusions g.followRounds g.initialFollow = (sets, .ok ())) :
    ¬g.Stops s := by
  rintro ⟨p, hp, l, n, r, hrhs, hn, hlacks⟩
  obtain ⟨_, _, hholds⟩ := Inclusion.saturate_ok g.followInclusions_drawsFrom
    g.initialFollow_within (followRounds_suffice hg) h
  obtain ⟨c, hc⟩ : ∃ c, c ∈ followInclusionsAt g.first p.name n r := ⟨_, List.mem_cons_self ..⟩
  obtain ⟨found, hfound, _⟩ := hholds c (mem_followInclusions hp hrhs hn hc)
  rw [source_eq_error hc (firstOf_eq_error_iff.mpr ⟨s, rfl, hlacks⟩)] at hfound
  cases hfound

/-! ### How a computation ends -/

/-- Without FIRST sets both kinds of sets are computed, and that succeeds. -/
theorem computeFollow_of_none (hg : g.Consistent) (hfirst : g.first = ∅) (hfollow : g.follow = ∅) :
    ∃ first follow, g.computeFollow = ({ g with first := first, follow := follow }, .ok follow) ∧
      FirstSolved { g with first := first } ∧
      Inclusion.saturate g.firstInclusions g.firstRounds g.initialFirst = (first, .ok ()) ∧
      Inclusion.saturate { g with first := first }.followInclusions
        { g with first := first }.followRounds g.initialFollow = (follow, .ok ()) := by
  obtain ⟨first, hcompute, hsaturate⟩ := exists_computeFirst hg hfirst
  have hsolved := firstSolved_of_saturate hg hsaturate
  have htotal := followInclusions_total (hg.withSets first g.follow) hsolved
  obtain ⟨follow, hrounds⟩ := Inclusion.saturate_total htotal
  exact ⟨first, follow, computeFollow_eq_saturate hg hfollow hcompute hrounds, hsolved, hsaturate,
    hrounds⟩

/-- FIRST sets that are there are used as they are. -/
theorem computeFollow_of_first (hg : g.Consistent) (hfirst : g.first ≠ ∅) (hfollow : g.follow = ∅)
    {outcome : Except Fault Unit}
    (h : Inclusion.saturate g.followInclusions g.followRounds g.initialFollow = (sets, outcome)) :
    g.computeFollow = ({ g with follow := sets }, outcome.map fun _ => sets) :=
  computeFollow_eq_saturate hg hfollow (computeFirst_of_first hfirst) h

/-- A computation that fails has met FIRST sets that were there before, and rounds that fail with
them. -/
theorem exists_of_computeFollow_error (hg : g.Consistent)
    (h : g.computeFollow = (g', .error fault)) :
    g.first ≠ ∅ ∧ g.follow = ∅ ∧ ∃ sets, g' = { g with follow := sets } ∧
      Inclusion.saturate g.followInclusions g.followRounds g.initialFollow =
        (sets, .error fault) := by
  have hfollow : g.follow = ∅ := by
    by_contra hne
    rw [computeFollow_of_follow hne] at h
    cases (Prod.mk.inj h).2
  have hfirst : g.first ≠ ∅ := by
    intro hnone
    obtain ⟨first, follow, hcompute, _⟩ := computeFollow_of_none hg hnone hfollow
    rw [hcompute] at h
    cases (Prod.mk.inj h).2
  cases hrounds : Inclusion.saturate g.followInclusions g.followRounds g.initialFollow with
  | mk sets outcome =>
    rw [computeFollow_of_first hg hfirst hfollow hrounds] at h
    obtain ⟨hsets, hfault⟩ := Prod.mk.inj h
    cases outcome with
    | ok _ => cases hfault
    | error _ =>
      obtain rfl := Except.error.inj hfault
      exact ⟨hfirst, hfollow, sets, hsets.symm, rfl⟩

theorem computeFollow_fails_iff (hg : g.Consistent) :
    (∃ g' fault, g.computeFollow = (g', .error fault)) ↔
      g.first ≠ ∅ ∧ g.follow = ∅ ∧ ∃ s, g.Stops s := by
  constructor
  · rintro ⟨g', fault, h⟩
    obtain ⟨hfirst, hfollow, sets, _, hrounds⟩ := exists_of_computeFollow_error hg h
    obtain ⟨s, _, hstops⟩ := exists_stop_of_saturate hg hrounds
    exact ⟨hfirst, hfollow, s, hstops⟩
  · rintro ⟨hfirst, hfollow, s, hstops⟩
    cases hrounds : Inclusion.saturate g.followInclusions g.followRounds g.initialFollow with
    | mk sets outcome =>
      cases outcome with
      | ok _ => exact absurd hstops (not_stops_of_saturate hg hrounds)
      | error fault =>
        exact ⟨_, fault, computeFollow_of_first hg hfirst hfollow hrounds⟩

/-- Sets that were not there and are computed without fail are finished. -/
theorem followSolved_of_computeFollow (hg : g.Consistent) (hfollow : g.follow = ∅)
    (h : g.computeFollow = (g', .ok sets)) : g'.follow = sets ∧ g'.FollowSolved := by
  by_cases hfirst : g.first = ∅
  · obtain ⟨first, follow, hcompute, _, _, hrounds⟩ := computeFollow_of_none hg hfirst hfollow
    obtain ⟨rfl, hsets⟩ := Prod.mk.inj (hcompute.symm.trans h)
    have hg' := hg.withSets first g.follow
    exact ⟨Except.ok.inj hsets, followSolved_of_saturate hg' hrounds⟩
  · cases hrounds : Inclusion.saturate g.followInclusions g.followRounds g.initialFollow with
    | mk follow outcome =>
      have hcompute := computeFollow_of_first hg hfirst hfollow hrounds
      obtain ⟨rfl, hsets⟩ := Prod.mk.inj (hcompute.symm.trans h)
      cases outcome with
      | error _ => cases hsets
      | ok _ => exact ⟨Except.ok.inj hsets, followSolved_of_saturate hg hrounds⟩

/-! ### What is left behind -/

/-- FOLLOW sets that a failure leaves behind. The non-terminals have sets, which hold nothing but
what the rules ask for, and the mark for the end of the input is in one of them. So they count as
computed: whatever comes later keeps them, and another computation gives them without fail. -/
structure Unfinished (g : Grammar) (sets : SymbolSets) : Prop where
  mem_iff : ∀ n, n ∈ sets ↔ n ∈ g.nonterminals
  has_endMark : ∃ s, g.start = some s ∧ sets.Has s Symbol.endMark
  /-- The same rules have FOLLOW sets with all their members if these are computed at once. -/
  subset : ∃ g' full, (ofRules g.rules).computeFollow = (g', .ok full) ∧
    ∀ n x, sets.Has n x → full.Has n x
  kept : ∀ later, (callAll { g with follow := sets } later).follow = sets ∧
    (callAll { g with follow := sets } later).computeFollow =
      (callAll { g with follow := sets } later, .ok sets)

theorem follow_call (hfollow : g.follow ≠ ∅) (c : Call) : (g.call c).follow = g.follow := by
  rcases call_cases g c with ⟨r, _, _, heq⟩ | hsolves
  · rw [heq, congrArg follow (push_eq g r)]
  · exact hsolves.follow_eq hfollow

/-- Sets that are there stay, also if rules are added. -/
theorem follow_callAll (hfollow : g.follow ≠ ∅) (calls : List Call) :
    (g.callAll calls).follow = g.follow := by
  induction calls using List.reverseRecOn with
  | nil => rfl
  | append_singleton calls c ih =>
    rw [callAll_concat, follow_call (ih ▸ hfollow), ih]

/-- The grammar that is made of the same rules anew, with all its sets. -/
theorem exists_computeFollow_ofRules (hg : g.Consistent) (hempty : Symbol.empty ∉ g.terminals) :
    ∃ g' full, (ofRules g.rules).computeFollow = (g', .ok full) ∧ g'.follow = full ∧
      Contained g g' ∧ g'.Sound ∧ g'.FirstSolved ∧ g'.FollowSolved := by
  have hnames : ∀ r ∈ g.rules, r.name.isNonterminal = true := by
    intro r hr
    obtain ⟨p, hp, rfl⟩ := List.mem_map.mp hr
    exact hg.name_isNonterminal p hp
  obtain ⟨hfirst, hfollow⟩ := unsolved_of_addRules (addRules_eq_ofRules hnames)
  have hg' := consistent_ofRules hnames
  have hcontained : Contained g (ofRules g.rules) :=
    ⟨fun r hr => (rules_ofRules g.rules).symm ▸ hr, by
      rw [hg.start_eq_rules, hg'.start_eq_rules, rules_ofRules]⟩
  have hterminals : Symbol.empty ∉ (ofRules g.rules).terminals := by
    intro ht
    obtain ⟨hclass, hoccurs⟩ := hg'.mem_terminals_iff.mp ht
    rw [occurs_iff_mem_rules, rules_ofRules, ← occurs_iff_mem_rules] at hoccurs
    exact hempty (hg.mem_terminals_iff.mpr ⟨hclass, hoccurs⟩)
  obtain ⟨first, full, hcompute, hsolved, hsaturate, hrounds⟩ :=
    computeFollow_of_none hg' hfirst hfollow
  exact ⟨_, full, hcompute, rfl, ⟨hcontained.rules, hcontained.start_eq⟩,
    ⟨hg'.withSets first full, hterminals, leastSets_of_saturate hg' hterminals hsaturate hrounds⟩,
    hsolved.withFollow full,
    followSolved_of_saturate (g := { ofRules g.rules with first := first })
      (hg'.withSets first _) hrounds⟩

theorem unfinished_of_saturate {calls : List Call}
    (hempty : ∀ r, .add r ∈ calls → Symbol.empty ∉ r.rhs) (hstops : (callAll ∅ calls).Stops s)
    {rounds : Nat} {outcome : Except Fault Unit}
    (h : Inclusion.saturate (callAll ∅ calls).followInclusions rounds
      (callAll ∅ calls).initialFollow = (sets, outcome)) :
    (callAll ∅ calls).Unfinished sets := by
  have hg := consistent_callAll calls
  have hsound := sound_callAll hempty h
  obtain ⟨p, hp, _⟩ := hstops
  obtain ⟨start, hs⟩ := hg.exists_start hp
  have hmark : sets.Has start Symbol.endMark := by
    refine (Inclusion.grows_of_saturate h).has ⟨[Symbol.endMark], ?_, List.mem_singleton_self _⟩
    rw [find?_initialFollow, if_pos hs]
  have hne : sets ≠ ∅ := by
    rintro rfl
    cases hmark.mem
  refine ⟨mem_of_saturate hg h, ⟨start, hs, hmark⟩, ?_, fun later => ?_⟩
  · obtain ⟨g', full, hcompute, rfl, hcontained, hsound', hfirst, hfollow⟩ :=
      exists_computeFollow_ofRules hg hsound.empty_not_mem
    have hcontained : Contained { callAll ∅ calls with follow := sets } g' :=
      ⟨hcontained.rules, hcontained.start_eq⟩
    exact ⟨g', _, hcompute, fun n x hx => hcontained.has_follow hsound hsound' hfirst hfollow hx⟩
  · have hkept := follow_callAll (g := { callAll ∅ calls with follow := sets }) hne later
    have hgives := computeFollow_of_follow (hkept ▸ hne :
      (callAll { callAll ∅ calls with follow := sets } later).follow ≠ ∅)
    rw [hkept] at hgives
    exact ⟨hkept, hgives⟩

/-- After any calls, FOLLOW sets cannot be computed just if there are none, FIRST sets were computed
before, and one of a symbol that came in later is looked up. The failure leaves sets that lack
members, and gives them ever after. Sets that are computed without fail are finished. -/
theorem computeFollow_interrupted (calls : List Call)
    (hempty : ∀ r, .add r ∈ calls → Symbol.empty ∉ r.rhs) :
    ((∃ g' fault, (callAll ∅ calls).computeFollow = (g', .error fault)) ↔
        (callAll ∅ calls).first ≠ ∅ ∧ (callAll ∅ calls).follow = ∅ ∧
          ∃ s, (callAll ∅ calls).Stops s) ∧
      (∀ g' fault, (callAll ∅ calls).computeFollow = (g', .error fault) →
        (∃ s, fault = .missingSymbol s ∧ (callAll ∅ calls).Stops s) ∧
          ∃ sets, g' = { callAll ∅ calls with follow := sets } ∧
            (callAll ∅ calls).Unfinished sets) ∧
      ∀ g' sets, (callAll ∅ calls).follow = ∅ →
        (callAll ∅ calls).computeFollow = (g', .ok sets) →
          g'.follow = sets ∧ g'.FollowSolved := by
  have hg := consistent_callAll calls
  refine ⟨computeFollow_fails_iff hg, fun g' fault h => ?_, fun g' sets hfollow h =>
    followSolved_of_computeFollow hg hfollow h⟩
  obtain ⟨_, _, sets, hleft, hrounds⟩ := exists_of_computeFollow_error hg h
  obtain ⟨s, hfault, hstops⟩ := exists_stop_of_saturate hg hrounds
  exact ⟨⟨s, hfault, hstops⟩, sets, hleft, unfinished_of_saturate hempty hstops hrounds⟩

/-- A rule with new symbols that is added after FIRST sets were computed. -/
def lateRule : List Call := [.add ⟨"S", ["a"]⟩, .first, .add ⟨"S", ["A", "b"]⟩]

/-- What the failure at the late rule leaves. -/
theorem computeFollow_interrupted_lateRule :
    (∀ r, Call.add r ∈ lateRule → Symbol.empty ∉ r.rhs) ∧
      ∃ g' fault, (callAll ∅ lateRule).computeFollow = (g', .error fault) ∧
        (∃ s, fault = .missingSymbol s ∧ (callAll ∅ lateRule).Stops s) ∧
        ∃ sets, g' = { callAll ∅ lateRule with follow := sets } ∧
          (callAll ∅ lateRule).Unfinished sets := by
  have hempty : ∀ r, Call.add r ∈ lateRule → Symbol.empty ∉ r.rhs := by
    simp [lateRule, Symbol.empty]
  obtain ⟨_, hfails, _⟩ := computeFollow_interrupted lateRule hempty
  exact ⟨hempty, _, .missingSymbol "b", rfl, hfails _ _ rfl⟩

/-- Nothing follows `A` in what the failure leaves, and the next computation gives this without
fail, although `b` follows it. -/
theorem computeFollow_returns_unfinished :
    (callAll ∅ lateRule).follow.entries = [] ∧
      (callAll ∅ lateRule).computeFollow.2.toOption.isNone = true ∧
      (callAll ∅ lateRule).computeFollow.1.follow.entries = [("S", ["$"]), ("A", [])] ∧
      (callAll ∅ lateRule).computeFollow.1.computeFollow.2.toOption.map Assoc.entries =
        some [("S", ["$"]), ("A", [])] ∧
      (ofRules (callAll ∅ lateRule).rules).computeFollow.2.toOption.map Assoc.entries =
        some [("S", ["$"]), ("A", ["b"])] := by
  decide

end Grammar

end ShiftReduce
