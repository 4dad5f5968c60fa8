/-
The indexes of a grammar after any calls.

Whatever rules a grammar is asked to take, one after another, its maps say what the rules that it
took say: the calls with an illegal name fail and change nothing. So the checks that look things up
in the maps find what is to be found among the productions.

* `Grammar.attempt`, `Grammar.attemptAll` — the grammar after one call, and after several;
* `Grammar.attemptAll_eq` — only the rules with a legal name count;
* `Grammar.count_usesOf`, `Grammar.pairwise_usesOf` — the noted uses of a symbol;
* `Grammar.Indexes` — what the maps say of the rules;
* `Grammar.Diagnoses` — what the look-ups and the checks find;
* `Grammar.attemptAll_indexes` — both hold after any calls.
-/
import ShiftReduce.Proofs.Grammar.Diagnosis
import ShiftReduce.Proofs.Grammar.Reading

namespace ShiftReduce.Grammar

variable {g : Grammar}

/-! ### Calls -/

/-- The grammar after a call for one more rule. A call that fails leaves it as it was. -/
def attempt (g : Grammar) (r : Rule) : Grammar :=
  match g.add r with
  | .ok (reached, _) => reached
  | .error _ => g

/-- The grammar after a call for each of the given rules, in order. -/
def attemptAll (calls : List Rule) : Grammar := calls.foldl attempt ∅

theorem attempt_eq (g : Grammar) (r : Rule) :
    g.attempt r = if r.name.isNonterminal then g.push r else g := by
  unfold attempt add
  split
  · next hadd =>
    split at hadd
    · next hname => rw [if_pos hname, ← (Prod.mk.inj (Except.ok.inj hadd)).1]
    · cases hadd
  · next hadd =>
    split at hadd
    · cases hadd
    · next hname => rw [if_neg hname]

/-- Only the rules with a legal name count. -/
theorem attemptAll_eq (calls : List Rule) :
    attemptAll calls = ofRules (calls.filter fun r => r.name.isNonterminal) := by
  unfold attemptAll ofRules
  rw [List.foldl_filter]
  exact congrArg (fun step => calls.foldl step ∅) (funext fun g => funext fun r => attempt_eq g r)

theorem consistent_attemptAll (calls : List Rule) : (attemptAll calls).Consistent := by
  rw [attemptAll_eq]
  exact consistent_ofRules fun r hr => (List.mem_filter.mp hr).2

/-! ### Uses -/

theorem nextNumber_ofRules (rs : List Rule) : (ofRules rs).nextNumber = rs.length := by
  have hrules : (ofRules rs).rules.length = (ofRules rs).nextNumber := List.length_map ..
  rw [← hrules, rules_ofRules]

/-- A production uses a symbol as often as the symbol stands on its right side. -/
theorem count_usesOf (rs : List Rule) (s : Symbol) (k : Nat) :
    ((ofRules rs).usesOf s).count k = (rs[k]?.map fun r => r.rhs.count s).getD 0 := by
  induction rs using List.reverseRecOn with
  | nil => rfl
  | append_singleton rs r ih =>
    rw [ofRules_concat, usesOf_push, List.count_append, ih, List.count_replicate,
      nextNumber_ofRules, List.getElem?_append]
    by_cases hk : k < rs.length
    · have hne : rs.length ≠ k := by omega
      simp [hk, hne]
    · rw [List.getElem?_eq_none (by omega), if_neg hk]
      by_cases heq : rs.length = k
      · simp [heq]
      · have hout : [r][k - rs.length]? = none := List.getElem?_eq_none (by
          rw [List.length_singleton]
          omega)
        simp [heq, hout]

theorem mem_usesOf_iff {s : Symbol} {k : Nat} :
    k ∈ g.usesOf s ↔ ∃ p ∈ g.productions, s ∈ p.rhs ∧ p.number = k := by
  simp only [usesOf, List.mem_flatMap, List.mem_replicate, List.count_eq_zero, ne_eq,
    Decidable.not_not]
  exact exists_congr fun p => and_congr_right fun _ => and_congr_right fun _ => eq_comm

theorem pairwise_usesOf (rs : List Rule) (s : Symbol) :
    ((ofRules rs).usesOf s).Pairwise (· ≤ ·) := by
  induction rs using List.reverseRecOn with
  | nil => exact .nil
  | append_singleton rs r ih =>
    rw [ofRules_concat, usesOf_push]
    refine List.pairwise_append.mpr ⟨ih, List.pairwise_replicate.mpr (.inr (Nat.le_refl _)), ?_⟩
    -- The numbers noted before are those of places in the list, and the new one comes behind it.
    intro k hk k' hk'
    have hcount := count_usesOf rs s k
    have hlt : k < rs.length := by
      by_contra hge
      rw [List.getElem?_eq_none (by omega)] at hcount
      exact absurd hk (List.count_eq_zero.mp hcount)
    rw [(List.mem_replicate.mp hk').2, nextNumber_ofRules]
    exact Nat.le_of_lt hlt

/-! ### Maps -/

/-- What the maps of a grammar say of its rules. -/
structure Indexes (g : Grammar) (rs : List Rule) : Prop where
  productions_eq : g.productions = rs.mapIdx fun number r => ⟨r, number⟩
  /-- The productions of a name, in order, for the names that there are. -/
  find?_byName : ∀ n ps, g.byName.find? n = some ps ↔
    (∃ r ∈ rs, r.name = n) ∧ ps = g.productions.filter fun p => p.name = n
  /-- The lowest number of a rule, for the rules that there are. -/
  find?_byRule : ∀ r k, g.byRule.find? r = some k ↔ rs[k]? = some r ∧ ∀ j < k, rs[j]? ≠ some r
  mem_terminals : ∀ s, s ∈ g.terminals ↔ s.isNonterminal = false ∧ ∃ r ∈ rs, s ∈ r.rhs
  mem_nonterminals : ∀ s, s ∈ g.nonterminals ↔
    (∃ r ∈ rs, r.name = s) ∨ s.isNonterminal = true ∧ ∃ r ∈ rs, s ∈ r.rhs
  disjoint : ∀ s, s ∈ g.terminals → s ∉ g.nonterminals
  /-- The numbers noted for a symbol do not decrease, and each is there once for each place of the
  symbol on the right side. -/
  uses : ∀ s uses, g.terminals.find? s = some uses ∨ g.nonterminals.find? s = some uses →
    uses.Pairwise (· ≤ ·) ∧ ∀ k, uses.count k = (rs[k]?.map fun r => r.rhs.count s).getD 0
  start_eq : g.start = rs.head?.map Rule.name

/-- The first place of a member. -/
theorem idxOf?_eq_some_iff_getElem? {α : Type} [DecidableEq α] {l : List α} {a : α} {k : Nat} :
    l.idxOf? a = some k ↔ l[k]? = some a ∧ ∀ j < k, l[j]? ≠ some a := by
  rw [List.idxOf?_eq_some_iff]
  constructor
  · rintro ⟨hk, ha, hbefore⟩
    refine ⟨List.getElem?_eq_some_iff.mpr ⟨hk, ha⟩, fun j hj heq => ?_⟩
    obtain ⟨_, ha'⟩ := List.getElem?_eq_some_iff.mp heq
    exact hbefore j hj ha'
  · rintro ⟨hk, hbefore⟩
    obtain ⟨hlt, ha⟩ := List.getElem?_eq_some_iff.mp hk
    exact ⟨hlt, ha, fun j hj ha' => hbefore j hj (List.getElem?_eq_some_iff.mpr ⟨_, ha'⟩)⟩

theorem exists_production_iff {P : Rule → Prop} :
    (∃ p ∈ g.productions, P p.toRule) ↔ ∃ r ∈ g.rules, P r := by
  simp [rules]

theorem Consistent.indexes {rs : List Rule} (hg : (ofRules rs).Consistent) :
    (ofRules rs).Indexes rs := by
  have hrules := rules_ofRules rs
  have hname : ∀ n, (∃ p ∈ (ofRules rs).productions, p.name = n) ↔ ∃ r ∈ rs, r.name = n := by
    intro n
    rw [exists_production_iff (P := fun r => r.name = n), hrules]
  have hside : ∀ s, (∃ p ∈ (ofRules rs).productions, s ∈ p.rhs) ↔ ∃ r ∈ rs, s ∈ r.rhs := by
    intro s
    rw [exists_production_iff (P := fun r => s ∈ r.rhs), hrules]
  refine ⟨by rw [hg.productions_eq, hrules], fun n ps => ?_, fun r k => ?_, fun s => ?_,
    fun s => ?_, fun s => hg.not_mem_nonterminals, fun s uses huses => ?_, ?_⟩
  · have hbyName := hg.mem_byName_iff n
    have hfilter := hg.productionsOf_eq n
    rw [hname, ← Assoc.find?_isSome_iff] at hbyName
    rw [← hbyName, ← hfilter, productionsOf]
    cases (ofRules rs).byName.find? n <;> simp [eq_comm]
  · rw [hg.find?_byRule, hrules, idxOf?_eq_some_iff_getElem?]
  · rw [hg.mem_terminals_iff, ← hside]
    refine and_congr_right fun hclass => exists_congr fun p => and_congr_right fun hp => ?_
    refine or_iff_right ?_
    rintro rfl
    rw [hg.name_isNonterminal p hp] at hclass
    cases hclass
  · rw [hg.mem_nonterminals_iff, ← hside, ← hname]
    constructor
    · rintro ⟨hclass, p, hp, rfl | hs⟩
      · exact .inl ⟨p, hp, rfl⟩
      · exact .inr ⟨hclass, p, hp, hs⟩
    · rintro (⟨p, hp, rfl⟩ | ⟨hclass, p, hp, hs⟩)
      · exact ⟨hg.name_isNonterminal p hp, p, hp, .inl rfl⟩
      · exact ⟨hclass, p, hp, .inr hs⟩
  · have hnoted : ∃ b, ((ofRules rs).symbolsOf b).find? s = some uses :=
      huses.elim (fun h => ⟨false, h⟩) fun h => ⟨true, h⟩
    obtain ⟨b, hb⟩ := hnoted
    rw [hg.find?_symbolsOf] at hb
    split at hb
    · obtain rfl := Option.some.inj hb
      exact ⟨pairwise_usesOf rs s, count_usesOf rs s⟩
    · cases hb
  · rw [hg.start_eq, hg.productions_eq, hrules]
    cases rs <;> simp [List.mapIdx_cons]

/-! ### Look-ups and checks -/

/-- What the look-ups and the checks of a grammar find. -/
structure Diagnoses (g : Grammar) (rs : List Rule) : Prop where
  ruleNumber?_eq_some_iff : ∀ r k, g.ruleNumber? r = some k ↔
    rs[k]? = some r ∧ ∀ j < k, rs[j]? ≠ some r
  ruleNumber?_eq_none_iff : ∀ r, g.ruleNumber? r = none ↔ r ∉ rs
  duplicates_eq : g.duplicates = .ok (g.productions.filter fun p =>
    ∃ q ∈ g.productions, q.number < p.number ∧ q.toRule = p.toRule)
  /-- Each symbol is reported once, with the production of the lowest number that uses it. -/
  undefinedSymbols_eq : ∃ found, g.undefinedSymbols = .ok found ∧
    (found.map Prod.fst).Sublist g.nonterminals.keys ∧
    ∀ s p, (s, p) ∈ found ↔ s.isNonterminal = true ∧ (∀ r ∈ rs, r.name ≠ s) ∧
      p ∈ g.productions ∧ s ∈ p.rhs ∧ ∀ q ∈ g.productions, s ∈ q.rhs → p.number ≤ q.number

/-- A production has another number than its rule if there is an equal one before it. -/
theorem Consistent.ruleNumber?_ne_iff (hg : g.Consistent) {p : Production}
    (hp : p ∈ g.productions) : g.ruleNumber? p.toRule ≠ some p.number ↔
      ∃ q ∈ g.productions, q.number < p.number ∧ q.toRule = p.toRule := by
  obtain ⟨i, hi⟩ := List.getElem?_of_mem hp
  obtain rfl := hg.number_eq hi
  have hat : ∀ j, g.rules[j]? = some p.toRule ↔
      ∃ q : Production, g.productions[j]? = some q ∧ q.toRule = p.toRule := fun j => by
    rw [rules, List.getElem?_map, Option.map_eq_some_iff]
  rw [ruleNumber?, hg.find?_byRule, ne_eq, idxOf?_eq_some_iff_getElem?, not_and]
  constructor
  · intro h
    have hearlier := h ((hat _).mpr ⟨p, hi, rfl⟩)
    push Not at hearlier
    obtain ⟨j, hj, hrule⟩ := hearlier
    obtain ⟨q, hq, hrule⟩ := (hat j).mp hrule
    exact ⟨q, List.mem_of_getElem? hq, (hg.number_eq hq).symm ▸ hj, hrule⟩
  · rintro ⟨q, hq, hlt, hrule⟩ _ hfirst
    obtain ⟨j, hj⟩ := List.getElem?_of_mem hq
    obtain rfl := hg.number_eq hj
    exact hfirst _ hlt ((hat _).mpr ⟨q, hj, hrule⟩)

/-- The first use of a symbol is by the production of the lowest number that uses it. -/
theorem head?_usesOf_eq_some_iff {rs : List Rule} {s : Symbol} {k : Nat} :
    ((ofRules rs).usesOf s).head? = some k ↔ k ∈ (ofRules rs).usesOf s ∧
      ∀ j ∈ (ofRules rs).usesOf s, k ≤ j := by
  have hsorted := pairwise_usesOf rs s
  cases hlist : (ofRules rs).usesOf s with
  | nil => simp
  | cons j rest =>
    rw [hlist] at hsorted
    have hleast := (List.pairwise_cons.mp hsorted).1
    rw [List.head?_cons, Option.some.injEq]
    constructor
    · rintro rfl
      refine ⟨List.mem_cons_self .., fun i hi => ?_⟩
      rcases List.mem_cons.mp hi with rfl | hi
      · exact Nat.le_refl _
      · exact hleast i hi
    · rintro ⟨hk, hle⟩
      rcases List.mem_cons.mp hk with rfl | hk
      · rfl
      · exact Nat.le_antisymm (hleast k hk) (hle j (List.mem_cons_self ..))

theorem Consistent.mem_undefinedUses_iff (hg : g.Consistent) {s : Symbol} {k : Nat} :
    (s, k) ∈ g.undefinedUses ↔
      s.isNonterminal = true ∧ s ∉ g.byName ∧ (g.usesOf s).head? = some k := by
  have hnoted : ∀ uses, (s, uses) ∈ g.nonterminals.entries ↔
      (s.isNonterminal = true ∧ g.Occurs s) ∧ g.usesOf s = uses := fun uses => by
    have hfind := hg.find?_symbolsOf true s
    rw [← Assoc.find?_eq_some_iff]
    have hsymbols : g.symbolsOf true = g.nonterminals := rfl
    rw [← hsymbols, hfind, Option.ite_none_right_eq_some, Option.some.injEq]
  rw [undefinedUses, List.mem_filterMap]
  constructor
  · rintro ⟨⟨s', uses⟩, hentry, hreported⟩
    dsimp only at hreported
    split at hreported
    · cases hreported
    · next hdefined =>
      obtain ⟨number, hnumber, heq⟩ := Option.map_eq_some_iff.mp hreported
      obtain ⟨rfl, rfl⟩ := Prod.mk.inj heq
      obtain ⟨⟨hclass, _⟩, rfl⟩ := (hnoted uses).mp hentry
      exact ⟨hclass, hdefined, hnumber⟩
  · rintro ⟨hclass, hdefined, hhead⟩
    obtain ⟨p, hp, hs, _⟩ := mem_usesOf_iff.mp (List.mem_of_head? hhead)
    refine ⟨(s, g.usesOf s), (hnoted _).mpr ⟨⟨hclass, p, hp, .inr hs⟩, rfl⟩, ?_⟩
    dsimp only
    rw [if_neg hdefined, hhead]
    rfl

theorem undefinedUses_sublist (g : Grammar) :
    (g.undefinedUses.map Prod.fst).Sublist g.nonterminals.keys := by
  unfold undefinedUses Assoc.keys
  induction g.nonterminals.entries with
  | nil => exact .slnil
  | cons e entries ih =>
    obtain ⟨s, uses⟩ := e
    rw [List.filterMap_cons]
    dsimp only
    split
    · exact ih.cons _
    · next hreported =>
      split at hreported
      · cases hreported
      · obtain ⟨number, _, rfl⟩ := Option.map_eq_some_iff.mp hreported
        exact ih.cons_cons _

/-- What is reported are the first uses, with the productions in place of their numbers. -/
theorem Consistent.undefinedSymbols_uses (hg : g.Consistent) {found : List (Symbol × Production)}
    (h : g.undefinedSymbols = .ok found) :
    found.map (fun report => (report.1, report.2.number)) = g.undefinedUses ∧
      ∀ s p, (s, p) ∈ found → p ∈ g.productions := by
  have hall := mapM_eq_ok_iff.mp h
  clear h
  generalize g.undefinedUses = uses at hall ⊢
  induction hall with
  | nil => exact ⟨rfl, fun s p hin => absurd hin List.not_mem_nil⟩
  | @cons use report uses found hreport _ ih =>
    obtain ⟨s, number⟩ := use
    obtain ⟨p, hat, heq⟩ := bind_eq_ok_iff.mp hreport
    obtain rfl := Except.ok.inj heq
    have hp := getElem?_of_productionAt hat
    obtain rfl := hg.number_eq hp
    refine ⟨?_, fun s' p' hin => ?_⟩
    · rw [List.map_cons, ih.1]
    · rcases List.mem_cons.mp hin with heq | hin
      · obtain ⟨rfl, rfl⟩ := Prod.mk.inj heq
        exact List.mem_of_getElem? hp
      · exact ih.2 s' p' hin

theorem Consistent.diagnoses {rs : List Rule} (hg : (ofRules rs).Consistent) :
    (ofRules rs).Diagnoses rs := by
  refine ⟨hg.indexes.find?_byRule, fun r => ?_, ?_, ?_⟩
  · rw [ruleNumber?, hg.find?_byRule, rules_ofRules, List.idxOf?_eq_none_iff]
  · rw [duplicates_eq hg]
    refine congrArg Except.ok (List.filter_congr fun p hp => ?_)
    exact decide_eq_decide.mpr (hg.ruleNumber?_ne_iff hp)
  · obtain ⟨found, hfound⟩ := undefinedSymbols_total hg
    obtain ⟨huses, hin⟩ := hg.undefinedSymbols_uses hfound
    have hnames : found.map Prod.fst = (ofRules rs).undefinedUses.map Prod.fst := by
      rw [← huses, List.map_map]
      rfl
    refine ⟨found, hfound, hnames ▸ undefinedUses_sublist _, fun s p => ?_⟩
    have hundefined : s ∉ (ofRules rs).byName ↔ ∀ r ∈ rs, r.name ≠ s := by
      rw [hg.mem_byName_iff, exists_production_iff (P := fun r => r.name = s), rules_ofRules]
      simp
    have hmem : (s, p) ∈ found ↔
        p ∈ (ofRules rs).productions ∧ (s, p.number) ∈ (ofRules rs).undefinedUses := by
      rw [← huses]
      constructor
      · exact fun hsp => ⟨hin s p hsp, List.mem_map_of_mem hsp⟩
      · rintro ⟨hp, hnumber⟩
        obtain ⟨⟨s', p'⟩, hsp, heq⟩ := List.mem_map.mp hnumber
        obtain ⟨rfl, hsame⟩ := Prod.mk.inj heq
        rwa [← hg.eq_of_number_eq (hin s' p' hsp) hp hsame]
    rw [hmem, hg.mem_undefinedUses_iff, hundefined, head?_usesOf_eq_some_iff, mem_usesOf_iff]
    constructor
    · rintro ⟨hp, hclass, hdefined, ⟨q, hq, hs, hnumber⟩, hleast⟩
      obtain rfl := hg.eq_of_number_eq hq hp hnumber
      exact ⟨hclass, hdefined, hp, hs, fun q hq hs =>
        hleast q.number (mem_usesOf_iff.mpr ⟨q, hq, hs, rfl⟩)⟩
    · rintro ⟨hclass, hdefined, hp, hs, hleast⟩
      refine ⟨hp, hclass, hdefined, ⟨p, hp, hs, rfl⟩, fun j hj => ?_⟩
      obtain ⟨q, hq, hs, rfl⟩ := mem_usesOf_iff.mp hj
      exact hleast q hq hs

/-- After any calls the maps of the grammar say what the rules with legal names say, and the
look-ups and the checks find what there is to be found. -/
theorem attemptAll_indexes (calls : List Rule) :
    (attemptAll calls).Indexes (calls.filter fun r => r.name.isNonterminal) ∧
      (attemptAll calls).Diagnoses (calls.filter fun r => r.name.isNonterminal) := by
  rw [attemptAll_eq]
  have hg : (ofRules (calls.filter fun r => r.name.isNonterminal)).Consistent :=
    consistent_ofRules fun r hr => (List.mem_filter.mp hr).2
  exact ⟨hg.indexes, hg.diagnoses⟩

end ShiftReduce.Grammar
