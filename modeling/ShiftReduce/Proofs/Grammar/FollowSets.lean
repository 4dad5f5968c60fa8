/-
FOLLOW sets are exactly what derivations say.

The mark for the end of the input is put behind the start symbol, and what stands behind a
non-terminal in a row that is derived from the two is in its FOLLOW set. Where the start symbol
reaches every non-terminal nothing else is: an inclusion takes a symbol from right behind a name,
or from the beginning of what stands behind on a right side, to where the name is replaced.

* `Grammar.Follows` — what stands right behind a symbol in derived rows;
* `Grammar.FollowSolved.has_of_derives` — what can stand behind a non-terminal in a derived row is
  in its set, by induction along the derivation;
* `Grammar.follow_induction` — what the rules for FOLLOW sets keep holds of all members;
* `Grammar.LeastSets` — sets that have nothing but what they must, as computed ones do;
* `Grammar.follows_of_saturate` — if all names are reached, members stand behind;
* `Grammar.computeFollow_isFollow` — FOLLOW sets of non-terminals.
-/
import ShiftReduce.Proofs.Grammar.FirstSets
import ShiftReduce.Proofs.Grammar.Followers
import ShiftReduce.Proofs.Grammar.Reachability
import ShiftReduce.Proofs.Text.Words

namespace ShiftReduce

/-- A symbol at the end that names no rule stays there. -/
theorem exists_of_derives_concat {rs : List Rule} {t : Symbol} (ht : ∀ r ∈ rs, r.name ≠ t)
    {xs zs : List Symbol} (h : Derives rs (xs ++ [t]) zs) :
    ∃ ys, zs = ys ++ [t] ∧ Derives rs xs ys := by
  induction h with
  | refl => exact ⟨xs, rfl, .refl xs⟩
  | tail _ step ih =>
    obtain ⟨ys, rfl, hys⟩ := ih
    generalize hrow : ys ++ [t] = row at step
    cases step with
    | @replace left right r mem =>
      rcases List.eq_nil_or_concat right with rfl | ⟨right, t', rfl⟩
      · obtain ⟨_, hlast⟩ := List.append_inj' hrow rfl
        exact absurd (List.cons.inj hlast).1.symm (ht r mem)
      · rw [List.concat_eq_append, ← List.cons_append, ← List.append_assoc] at hrow
        obtain ⟨rfl, hlast⟩ := List.append_inj' hrow rfl
        obtain rfl := (List.cons.inj hlast).1
        refine ⟨left ++ (r.rhs ++ right), by simp, ?_⟩
        exact hys.tail (.replace left right mem)

namespace Grammar

variable {g : Grammar} {a : Augmented} {s n x : Symbol} {xs ys : List Symbol}

/-- The terminals that stand right behind a symbol in rows derived from `s` with the mark for the
end of the input behind it, and the mark itself. -/
def Follows (g : Grammar) (s n x : Symbol) : Prop :=
  (x ∈ g.terminals ∨ x = Symbol.endMark) ∧
    ∃ left right, Derives g.rules [s, Symbol.endMark] (left ++ n :: x :: right)

/-- A list without repeats of what stands right behind a symbol. Only if every non-terminal is
reached it has nothing else. -/
structure IsFollow (g : Grammar) (s n : Symbol) (l : List Symbol) : Prop where
  nodup : l.Nodup
  empty_not_mem : Symbol.empty ∉ l
  subset : ∀ x ∈ l, x ∈ g.terminals ∨ x = Symbol.endMark
  mem_of_follows : ∀ x, g.Follows s n x → x ∈ l
  mem_iff : g.unreachable = [] → ∀ x, x ∈ l ↔ g.Follows s n x

/-! ### All that stands behind -/

/-- What can follow a row after a step, can follow it before. -/
theorem FirstSolved.canFollow_of_produces (h : g.FirstSolved) (hxs : ∀ y ∈ xs, g.Occurs y)
    (step : Produces g.rules xs ys) (hx : g.CanFollow a n ys x) : g.CanFollow a n xs x := by
  rcases hx with ⟨hne, hstarts⟩ | ⟨hempty, hname⟩
  · exact .inl ⟨hne, h.starts_of_produces hxs step hstarts⟩
  · exact .inr ⟨h.starts_of_produces hxs step hempty, hname⟩

/-- What can follow two rows is what the first begins with, or what can follow the second. -/
theorem CanFollow.append_cases (hxs : ∀ y ∈ xs, y ∈ g.first) (hx : g.CanFollow a n (xs ++ ys) x) :
    (x ≠ Symbol.empty ∧ Starts g.first xs x) ∨
      Starts g.first xs Symbol.empty ∧ g.CanFollow a n ys x := by
  rcases hx with ⟨hne, hstarts⟩ | ⟨hempty, hname⟩
  · rcases hstarts.append_cases hxs with hfirst | ⟨hempty, hrest⟩
    · exact .inl hfirst
    · exact .inr ⟨hempty, .inl ⟨hne, hrest⟩⟩
  · rcases hempty.append_cases hxs with ⟨hne, _⟩ | ⟨hempty, hrest⟩
    · exact absurd rfl hne
    · exact .inr ⟨hempty, .inr ⟨hrest, hname⟩⟩

/-- What can stand behind a non-terminal in a derived row is in its set. -/
theorem FollowSolved.has_of_derives (h : g.FollowSolved) (hfirst : g.FirstSolved)
    (hg : g.Consistent) (ha : Augmented.ofGrammar g = .ok a) {row : List Symbol}
    (hd : Derives g.rules [a.goal] row) : ∀ left n right, row = left ++ n :: right →
      n ∈ g.nonterminals → g.CanFollow a a.start right x → g.follow.Has n x := by
  have hgoal := (Augmented.ofGrammar_eq_ok_iff.mp ha).1
  have hoccurs : ∀ s ∈ [a.goal], g.Occurs s := fun s hs =>
    List.mem_singleton.mp hs ▸ (hg.mem_nonterminals_iff.mp (hg.start_mem_nonterminals hgoal)).2
  induction hd with
  | refl =>
    intro left n right hrow hn hx
    exact h.has_of_canFollow hg ha (List.mem_cons_self ..) (r := ⟨a.start, [a.goal]⟩) hrow hn hx
  | tail hd step ih =>
    have hbefore := occurs_of_derives hd hoccurs
    cases step with
    | @replace before behind r mem =>
      obtain ⟨p, hp, rfl⟩ := List.mem_map.mp mem
      intro left n right hrow hn hx
      rcases append_eq_append_cons_cases hrow with ⟨mid, rfl, rfl⟩ | ⟨tail, htail, rfl⟩
      -- It stands before the name that was replaced.
      · refine ih left n (mid ++ p.name :: behind) (by simp) hn ?_
        have hmid : ∀ y ∈ mid ++ p.name :: behind, g.Occurs y := fun y hy =>
          hbefore y (by simp_all)
        exact hfirst.canFollow_of_produces hmid (.replace mid behind mem) hx
      · rcases append_eq_append_cons_cases htail with ⟨rest, hrhs, rfl⟩ | ⟨mid, rfl, rfl⟩
        -- It comes from the right side.
        · have hkey : ∀ y ∈ rest, y ∈ g.first := fun y hy =>
            (hfirst.mem_iff y).mpr ⟨p, hp, .inr (by simp [hrhs, hy])⟩
          rcases hx.append_cases hkey with ⟨hne, hstarts⟩ | ⟨hempty, hbehind⟩
          · exact h.has_rest p hp tail n rest hrhs hn x hne hstarts
          · have hname := ih before p.name behind rfl (hg.name_mem_nonterminals hp) hbehind
            exact h.has_name p hp tail n rest hrhs hn hempty x hname
        -- It stands behind it.
        · exact ih (before ++ p.name :: mid) n right (by simp) hn hx

theorem FollowSolved.has_of_follows (h : g.FollowSolved) (hfirst : g.FirstSolved)
    (hg : g.Consistent) (hempty : Symbol.empty ∉ g.terminals) (hmark : ¬g.Occurs Symbol.endMark)
    (ha : Augmented.ofGrammar g = .ok a) (hn : n ∈ g.nonterminals) (hx : g.Follows a.goal n x) :
    g.follow.Has n x := by
  obtain ⟨hx, left, right, hmarked⟩ := hx
  have hname : ∀ r ∈ g.rules, r.name ≠ Symbol.endMark := by
    intro r hr heq
    obtain ⟨p, hp, rfl⟩ := List.mem_map.mp hr
    exact hmark ⟨p, hp, .inl heq.symm⟩
  have hmarked : Derives g.rules ([a.goal] ++ [Symbol.endMark]) _ := hmarked
  obtain ⟨row, hrow, hd⟩ := exists_of_derives_concat hname hmarked
  have hgoal := hg.start_mem_nonterminals (Augmented.ofGrammar_eq_ok_iff.mp ha).1
  have hoccurs : ∀ y ∈ row, g.Occurs y := occurs_of_derives hd fun s hs =>
    List.mem_singleton.mp hs ▸ (hg.mem_nonterminals_iff.mp hgoal).2
  rcases append_eq_append_cons_cases hrow.symm with ⟨behind, rfl, hbehind⟩ | ⟨_, hshort, _⟩
  · cases behind with
    | nil =>
      obtain rfl := (List.cons.inj hbehind).1
      exact h.has_of_derives hfirst hg ha hd left n [] rfl hn
        (canFollow_nil (by rw [FollowsName, if_pos rfl]))
    | cons y behind =>
      obtain rfl := (List.cons.inj hbehind).1
      have ht : x ∈ g.terminals :=
        hx.resolve_right fun heq => hmark (heq ▸ hoccurs x (by simp))
      have hne : x ≠ Symbol.empty := fun heq => hempty (heq ▸ ht)
      have hkeys : ∀ y ∈ behind, y ∈ g.first := fun y hy =>
        (hfirst.mem_iff y).mpr (hoccurs y (by simp [hy]))
      have hstarts := starts_cons_of_has hkeys (hfirst.has_self x ht) hne
      exact h.has_of_derives hfirst hg ha hd left n (x :: behind) rfl hn (.inl ⟨hne, hstarts⟩)
  · have hlen := congrArg List.length hshort
    simp only [List.length_append, List.length_cons, List.length_nil] at hlen
    omega

/-! ### Nothing but what stands behind -/

/-- What the rules for FOLLOW sets keep holds of all members of the sets that rounds compute. -/
theorem follow_induction {Q : Symbol → Symbol → Prop}
    (start : ∀ s, g.start = some s → Q s Symbol.endMark)
    (rest : ∀ p ∈ g.productions, ∀ l n r, p.rhs = l ++ n :: r →
      ∀ x, x ≠ Symbol.empty → Starts g.first r x → Q n x)
    (name : ∀ p ∈ g.productions, ∀ l n r, p.rhs = l ++ n :: r →
      Starts g.first r Symbol.empty → ∀ x, Q p.name x → Q n x)
    {rounds : Nat} {sets : SymbolSets} {outcome : Except Fault Unit}
    (h : Inclusion.saturate g.followInclusions rounds g.initialFollow = (sets, outcome)) :
    ∀ n x, sets.Has n x → Q n x := by
  refine Inclusion.saturate_induction (I := fun sets => ∀ n x, sets.Has n x → Q n x) ?_ h ?_
  · intro c hc sets sets' hsets happly n x hx
    rcases Inclusion.has_of_apply happly hx with hold | ⟨rfl, found, hfound, hnew⟩
    · exact hsets n x hold
    · obtain ⟨p, hp, l, r, hrhs, _, hcases⟩ := exists_of_mem_followInclusions hc hfound hnew
      rcases hcases with ⟨hne, hstarts⟩ | ⟨hempty, hname⟩
      · exact rest p hp l _ r hrhs x hne hstarts
      · exact name p hp l _ r hrhs hempty x (hsets _ _ hname)
  · rintro n x ⟨l, hl, hx⟩
    rw [find?_initialFollow] at hl
    split at hl
    · next hstart =>
      obtain rfl := Option.some.inj hl
      exact List.mem_singleton.mp hx ▸ start n hstart
    · split at hl
      · obtain rfl := Option.some.inj hl
        cases hx
      · cases hl

/-- FIRST sets that have nothing but what derived rows begin with, and FOLLOW sets, of the
non-terminals only, that have nothing but what the rules for them ask for. -/
structure LeastSets (g : Grammar) : Prop where
  begins : ∀ s x, g.first.Has s x → g.Begins [s] x
  mem_follow_iff : ∀ n, n ∈ g.follow ↔ n ∈ g.nonterminals
  /-- Members have whatever the rules keep. -/
  induction : ∀ Q : Symbol → Symbol → Prop, (∀ s, g.start = some s → Q s Symbol.endMark) →
    (∀ p ∈ g.productions, ∀ l n r, p.rhs = l ++ n :: r →
      ∀ x, x ≠ Symbol.empty → Starts g.first r x → Q n x) →
    (∀ p ∈ g.productions, ∀ l n r, p.rhs = l ++ n :: r →
      Starts g.first r Symbol.empty → ∀ x, Q p.name x → Q n x) →
    ∀ n x, g.follow.Has n x → Q n x

/-- Sets that rounds compute are least. -/
theorem leastSets_of_saturate (hg : g.Consistent) (hempty : Symbol.empty ∉ g.terminals)
    {first follow : SymbolSets} {rounds : Nat} {outcome outcome' : Except Fault Unit}
    (hfirst : Inclusion.saturate g.firstInclusions rounds g.initialFirst = (first, outcome))
    {rounds' : Nat} (hfollow : Inclusion.saturate { g with first := first }.followInclusions
      rounds' g.initialFollow = (follow, outcome')) :
    LeastSets { g with first := first, follow := follow } where
  begins := begins_of_saturate (g := g) hg hempty hfirst
  mem_follow_iff := mem_of_saturate (hg.withSets first g.follow) hfollow
  induction _ start rest name :=
    follow_induction (g := { g with first := first }) start rest name hfollow

theorem Begins.mem_terminals (h : g.Begins xs x) (hx : x ≠ Symbol.empty) : x ∈ g.terminals := by
  rcases h with ⟨hempty, _⟩ | ⟨ht, _⟩
  · exact absurd hempty hx
  · exact ht

/-- There is nothing in least FOLLOW sets but terminals and the mark for the end of the input. -/
theorem LeastSets.mem_terminals_or_eq_endMark (h : g.LeastSets)
    (hempty : Symbol.empty ∉ g.terminals) (hx : g.follow.Has n x) :
    x ∈ g.terminals ∨ x = Symbol.endMark := by
  refine h.induction (fun _ x => x ∈ g.terminals ∨ x = Symbol.endMark) (fun _ _ => .inr rfl) ?_
    (fun _ _ _ _ _ _ _ _ hx => hx) n x hx
  intro _ _ _ _ _ _ x hne hstarts
  exact .inl ((begins_of_starts hempty h.begins hstarts).mem_terminals hne)

/-- Behind a name that stands in a derived row, so does what is derived from the end of a right
side. -/
theorem derives_behind {p : Production} (hp : p ∈ g.productions)
    {left right l r behind : List Symbol} (hrhs : p.rhs = l ++ n :: r)
    (hd : Derives g.rules xs (left ++ p.name :: right)) (hbehind : Derives g.rules r behind) :
    Derives g.rules xs ((left ++ l) ++ n :: (behind ++ right)) := by
  have hreplaced := hd.tail (.replace left right (List.mem_map_of_mem hp))
  rw [show p.toRule.rhs = l ++ n :: r from hrhs] at hreplaced
  have hrest := hbehind.context (left ++ l ++ [n]) right
  simp only [List.append_assoc, List.cons_append, List.nil_append] at hreplaced hrest ⊢
  exact hreplaced.trans hrest

/-- If FIRST sets are right and all names are reached, rounds give FOLLOW sets nothing but what
stands behind. -/
theorem follows_of_saturate (hempty : Symbol.empty ∉ g.terminals)
    (hfirst : ∀ s x, g.first.Has s x → g.Begins [s] x) (hs : g.start = some s)
    (hreaches : ∀ p ∈ g.productions, g.Reaches s p.name) {rounds : Nat} {sets : SymbolSets}
    {outcome : Except Fault Unit}
    (h : Inclusion.saturate g.followInclusions rounds g.initialFollow = (sets, outcome)) :
    ∀ n x, sets.Has n x → g.Follows s n x := by
  refine follow_induction ?_ ?_ ?_ h
  · intro n hn
    obtain rfl := Option.some.inj (hs.symm.trans hn)
    exact ⟨.inr rfl, [], [], .refl _⟩
  · intro p hp l n r hrhs x hx hstarts
    rcases begins_of_starts hempty hfirst hstarts with ⟨heq, _⟩ | ⟨ht, rest, hrest⟩
    · exact absurd heq hx
    · obtain ⟨left, right, hd⟩ := hreaches p hp
      have hd := hd.context [] [Symbol.endMark]
      rw [List.append_assoc] at hd
      exact ⟨.inl ht, _, _, derives_behind hp hrhs hd hrest⟩
  · rintro p hp l n r hrhs hnone x ⟨hx, left, right, hd⟩
    rcases begins_of_starts hempty hfirst hnone with ⟨_, hnone⟩ | ⟨ht, _⟩
    · exact ⟨hx, _, _, derives_behind hp hrhs hd hnone⟩
    · exact absurd ht hempty

/-! ### FOLLOW sets -/

/-- Rounds from right FIRST sets up to the bound end in the FOLLOW sets. -/
theorem isFollow_of_saturate (hg : g.Consistent) (hfirst : g.FirstSolved)
    (hbegins : ∀ s x, g.first.Has s x → g.Begins [s] x) (hempty : Symbol.empty ∉ g.terminals)
    (hmark : ¬g.Occurs Symbol.endMark) (hs : g.start = some s) {sets : SymbolSets}
    (h : Inclusion.saturate g.followInclusions g.followRounds g.initialFollow = (sets, .ok ())) :
    (∀ n, n ∈ sets ↔ n ∈ g.nonterminals) ∧
      ∀ n ∈ g.nonterminals, ∃ l, sets.find? n = some l ∧ g.IsFollow s n l := by
  have hsolved := followSolved_of_saturate hg h
  have hkeys := mem_of_saturate hg h
  have hmembers := follow_induction (g := g) (Q := fun _ x => x ∈ g.terminals ∨ x = Symbol.endMark)
    (fun _ _ => .inr rfl)
    (fun _ _ _ _ _ _ _ hx hstarts =>
      .inl ((begins_of_starts hempty hbegins hstarts).mem_terminals hx))
    (fun _ _ _ _ _ _ _ _ hx => hx) h
  refine ⟨hkeys, fun n hn => ?_⟩
  obtain ⟨l, hl⟩ := Assoc.exists_find? ((hkeys n).mpr hn)
  have hall : ∀ x, g.Follows s n x → x ∈ l := fun x hx =>
    (Assoc.has_iff_of_find? hl).mp (hsolved.has_of_follows (hfirst.withFollow sets)
      (hg.withSets g.first sets) hempty hmark (a := ⟨s, g.rules⟩)
      (Augmented.ofGrammar_eq_ok_iff.mpr ⟨hs, rfl⟩) hn hx)
  refine ⟨l, hl, hsolved.nodup n l hl, fun hx => ?_, fun x hx => hmembers n x ⟨l, hl, hx⟩, hall,
    fun hunreachable x => ⟨fun hx => ?_, hall x⟩⟩
  · rcases hmembers n _ ⟨l, hl, hx⟩ with ht | heq
    · exact hempty ht
    · exact absurd heq (by decide)
  · have hreaches : ∀ p ∈ g.productions, g.Reaches s p.name := fun p hp =>
      (unreachable_eq_nil_iff hg hs).mp hunreachable p.name (hg.name_mem_nonterminals hp)
    exact follows_of_saturate hempty hbegins hs hreaches h n x ⟨l, hl, hx⟩

/-- FIRST sets that were computed before are those that are computed on the way. -/
theorem computeFollow_of_computeFirst {first : SymbolSets} (hnone : g.follow = ∅)
    (hcompute : g.computeFirst = ({ g with first := first }, .ok first))
    (h : FirstSolved { g with first := first }) (hne : g.productions ≠ []) :
    g.computeFirst.1.computeFollow = g.computeFollow := by
  have hempty : g.follow.isEmpty = true := hnone ▸ rfl
  rw [hcompute, computeFollow, computeFollow, computeFirst_of_firstSolved h hne, hcompute,
    if_pos hempty, if_pos hempty]

/-- FOLLOW sets of all non-terminals are computed, whether or not FIRST sets are there already. -/
theorem computeFollow_isFollow {rs : List Rule} {g : Grammar} (hrules : addRules rs = .ok g)
    (hne : rs ≠ []) (hmarks : ∀ r ∈ rs, Symbol.empty ∉ r.rhs ∧ Symbol.endMark ∉ r.rhs) :
    g.rules = rs ∧ ∃ s first follow, g.start = some s ∧
      g.computeFollow = ({ g with first := first, follow := follow }, .ok follow) ∧
      g.computeFirst.1.computeFollow = g.computeFollow ∧
      (∀ n, n ∈ follow ↔ n ∈ g.nonterminals) ∧
      ∀ n ∈ g.nonterminals, ∃ l, follow.find? n = some l ∧ g.IsFollow s n l := by
  have hg := consistent_of_addRules hrules
  obtain rfl := rules_of_addRules hrules
  obtain ⟨hnoFirst, hnoFollow⟩ := unsolved_of_addRules hrules
  have hproductions : g.productions ≠ [] := fun h => hne (by rw [rules, h]; rfl)
  obtain ⟨s, hs⟩ := hg.exists_start_of_ne_nil hproductions
  have hterminals : ∀ t ∈ g.terminals, t ≠ Symbol.empty ∧ t ≠ Symbol.endMark := by
    intro t ht
    obtain ⟨p, hp, hrhs⟩ := hg.exists_mem_rhs ht
    obtain ⟨hempty, hmark⟩ := hmarks p.toRule (List.mem_map_of_mem hp)
    exact ⟨fun heq => hempty (heq ▸ hrhs), fun heq => hmark (heq ▸ hrhs)⟩
  have hempty : Symbol.empty ∉ g.terminals := fun ht => (hterminals _ ht).1 rfl
  have hmark : ¬g.Occurs Symbol.endMark := fun hoccurs =>
    (hterminals _ (hg.mem_terminals_iff.mpr ⟨by decide, hoccurs⟩)).2 rfl
  obtain ⟨first, hcompute, hsaturate⟩ := exists_computeFirst hg hnoFirst
  have hfirst := firstSolved_of_saturate hg hsaturate
  have hbegins := begins_of_saturate hg hempty hsaturate
  have hg' := hg.withSets first g.follow
  have hsame := computeFollow_of_computeFirst hnoFollow hcompute hfirst hproductions
  obtain ⟨follow, hfollow, hrounds⟩ := exists_computeFollow hg' hfirst hproductions hnoFollow
  obtain ⟨hkeys, hsets⟩ := isFollow_of_saturate hg' hfirst hbegins hempty hmark hs hrounds
  refine ⟨rfl, s, first, follow, hs, ?_, hsame, hkeys, fun n hn => ?_⟩
  · rw [← hsame, hcompute]
    exact hfollow
  · obtain ⟨l, hl, hfollows⟩ := hsets n hn
    refine ⟨l, hl, hfollows.1, hfollows.2, hfollows.3, hfollows.4, fun hunreachable => ?_⟩
    exact hfollows.mem_iff ((unreachable_withSets g first g.follow).trans hunreachable)

/-- Rules with a right side that ends in its name, and with ends of right sides that can be
empty. -/
def trailingRules : List Rule :=
  [⟨"S", ["a", "S"]⟩, ⟨"S", ["A", "B", "A"]⟩, ⟨"A", []⟩, ⟨"A", ["b", "A"]⟩, ⟨"B", ["A", "c"]⟩,
    ⟨"B", []⟩]

example : (ofRules trailingRules).computeFollow.2.toOption.bind (fun sets => sets.find? "A") =
    some ["b", "c", "$"] := by
  decide

/-- The FOLLOW sets of these rules, which are all reached. -/
theorem computeFollow_isFollow_trailingRules :
    ∃ g, addRules trailingRules = .ok g ∧ trailingRules ≠ [] ∧
      (∀ r ∈ trailingRules, Symbol.empty ∉ r.rhs ∧ Symbol.endMark ∉ r.rhs) ∧
      g.unreachable = [] ∧ g.rules = trailingRules ∧ ∃ s first follow, g.start = some s ∧
        g.computeFollow = ({ g with first := first, follow := follow }, .ok follow) ∧
        g.computeFirst.1.computeFollow = g.computeFollow ∧
        (∀ n, n ∈ follow ↔ n ∈ g.nonterminals) ∧
        ∀ n ∈ g.nonterminals, ∃ l, follow.find? n = some l ∧ g.IsFollow s n l :=
  ⟨_, rfl, by decide, by decide, by decide, computeFollow_isFollow rfl (by decide) (by decide)⟩

end Grammar

end ShiftReduce
