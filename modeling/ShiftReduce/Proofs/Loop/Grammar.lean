/-
The loops over a grammar end.

Sets and lists of symbols are extended as long as something is to be added. Each pass that goes on
adds a symbol of the grammar that was not there, or takes one that is not searched from again.

* `Inclusion.RoundPass`, `Inclusion.rounds_terminate` — rounds of inclusions, for FIRST and FOLLOW
  sets;
* `Grammar.EndingPass`, `Grammar.ending_terminates` — rounds that find names that end;
* `Grammar.ExplorePass`, `Grammar.explore_terminates` — the search for what can be reached.
-/
import ShiftReduce.Proofs.Grammar.Diagnosis
import ShiftReduce.Proofs.Grammar.Reachability
import ShiftReduce.Proofs.Loop.Basic
import ShiftReduce.Proofs.Saturation

namespace ShiftReduce

/-! ### Rounds of inclusions -/

namespace Inclusion

/-- A round of inclusions. The loop goes on if a set grew. -/
inductive RoundPass (cs : List Inclusion) : SymbolSets → Pass SymbolSets → Prop where
  | grew {sets reached : SymbolSets} :
    round cs sets = (reached, .ok true) → RoundPass cs sets (.again reached)
  | same {sets reached : SymbolSets} :
    round cs sets = (reached, .ok false) → RoundPass cs sets (.leave reached)

variable {cs : List Inclusion} {sets sets' : SymbolSets} {stock : List Symbol}

theorem RoundPass.deterministic (cs : List Inclusion) : IsDeterministic (RoundPass cs) := by
  intro sets p p' h h'
  cases h with
  | grew hround =>
    cases h' with
    | grew hround' => rw [(Prod.mk.inj (hround.symm.trans hround')).1]
    | same hround' => cases hround.symm.trans hround'
  | same hround =>
    cases h' with
    | grew hround' => cases hround.symm.trans hround'
    | same hround' => rw [(Prod.mk.inj (hround.symm.trans hround')).1]

/-- Every round but the last adds a member of the stock to a set. -/
theorem RoundPass.proceeds (hcs : DrawsFrom cs stock) :
    Proceeds (RoundPass cs) (fun sets => sets.Within stock ∧ Total cs sets.keys)
      (fun sets => sets.keys.length * stock.length - sets.total) (saturate cs)
      (fun sets => (sets, .ok ())) 1 := by
  rintro sets ⟨hwithin, htotal⟩
  obtain ⟨reached, hall⟩ := applyAll_total htotal
  have hround : round cs sets = (reached, .ok (decide (sets.total < reached.total))) := by
    rw [round, hall]
    rfl
  have hkeys := (grows_of_applyAll hall).keys_eq
  have hwithin' := within_of_applyAll hcs hwithin hall
  by_cases hgrew : sets.total < reached.total
  · rw [decide_eq_true hgrew] at hround
    refine .inr ⟨reached, .grew hround, ⟨hwithin', hkeys ▸ htotal⟩, ?_, fun k => ?_⟩
    · have hbound := hwithin'.total_le
      dsimp only
      rw [← hkeys] at hbound ⊢
      omega
    · rw [saturate, hround]
  · rw [decide_eq_false hgrew] at hround
    exact .inl ⟨reached, .same hround, fun k => by rw [saturate, hround]⟩

theorem rounds_terminate (hcs : DrawsFrom cs stock) (htotal : Total cs sets.keys)
    (hsets : sets.Within stock) {rounds : Nat}
    (hrounds : sets.keys.length * stock.length < rounds + sets.total)
    (h : saturate cs rounds sets = (sets', .ok ())) :
    Terminates (RoundPass cs) (sets.keys.length * stock.length - sets.total) sets sets' := by
  obtain ⟨t, hterminates, hrun⟩ :=
    (RoundPass.proceeds hcs).terminates (RoundPass.deterministic cs) ⟨hsets, htotal⟩
  have hbound := hsets.total_le
  have ht := hrun rounds (by omega)
  obtain rfl := (Prod.mk.inj (h.symm.trans ht)).1
  exact hterminates

end Inclusion

namespace Grammar

variable {g : Grammar} {s : Symbol}

/-! ### Names that end -/

/-- A look at all names for those that are known to end now. The loop goes on if there is one
more. -/
inductive EndingPass (g : Grammar) : List Symbol → Pass (List Symbol) → Prop where
  | found {ending reached : List Symbol} : g.endingRound g.byName.entries ending = .ok reached →
    reached.length ≠ ending.length → EndingPass g ending (.again reached)
  | none {ending reached : List Symbol} : g.endingRound g.byName.entries ending = .ok reached →
    reached.length = ending.length → EndingPass g ending (.leave ending)

theorem EndingPass.deterministic (g : Grammar) : IsDeterministic (EndingPass g) := by
  intro ending p p' h h'
  cases h with
  | found hround hmore =>
    cases h' with
    | found hround' _ => rw [Except.ok.inj (hround.symm.trans hround')]
    | none hround' hsame =>
      obtain rfl := Except.ok.inj (hround.symm.trans hround')
      exact absurd hsame hmore
  | none hround hsame =>
    cases h' with
    | found hround' hmore =>
      obtain rfl := Except.ok.inj (hround.symm.trans hround')
      exact absurd hsame hmore
    | none _ _ => rfl

theorem not_mem_of_ends {ending : List Symbol} (h : g.ends ending s = .ok false) : s ∉ ending := by
  intro hin
  unfold ends at h
  split at h
  · rw [decide_eq_true hin] at h
    cases h
  · split at h <;> cases h

/-- A look adds names that were not there. -/
theorem extends_of_endingRound {entries : List (Symbol × List Production)}
    {ending reached : List Symbol} (h : g.endingRound entries ending = .ok reached)
    (hnodup : ending.Nodup) :
    ending.length ≤ reached.length ∧ reached.Nodup ∧ reached ⊆ ending ++ entries.map Prod.fst := by
  induction entries generalizing ending with
  | nil =>
    obtain rfl := Except.ok.inj h
    exact ⟨Nat.le_refl _, hnodup, List.subset_append_left ..⟩
  | cons e entries ih =>
    obtain ⟨name, ps⟩ := e
    have hskip : ending ++ entries.map Prod.fst ⊆ ending ++ name :: entries.map Prod.fst :=
      List.append_subset.mpr ⟨List.subset_append_left .., fun n hn =>
        List.mem_append_right _ (List.mem_cons_of_mem name hn)⟩
    rw [endingRound] at h
    obtain ⟨known, hknown, h⟩ := bind_eq_ok_iff.mp h
    cases known with
    | true =>
      obtain ⟨hle, hnodup', hsub⟩ := ih h hnodup
      exact ⟨hle, hnodup', List.Subset.trans hsub hskip⟩
    | false =>
      obtain ⟨found, _, h⟩ := bind_eq_ok_iff.mp h
      cases found with
      | false =>
        obtain ⟨hle, hnodup', hsub⟩ := ih h hnodup
        exact ⟨hle, hnodup', List.Subset.trans hsub hskip⟩
      | true =>
        have hnew := not_mem_of_ends hknown
        obtain ⟨hle, hnodup', hsub⟩ := ih h (List.nodup_append.mpr
          ⟨hnodup, List.nodup_singleton name, fun a ha b hb heq =>
            hnew (List.mem_singleton.mp hb ▸ heq ▸ ha)⟩)
        rw [List.length_append, List.length_singleton] at hle
        rw [List.append_assoc, List.singleton_append] at hsub
        exact ⟨by omega, hnodup', hsub⟩

/-- Every look but the last adds a name that has a production. -/
theorem EndingPass.proceeds (hg : g.Consistent) :
    Proceeds (EndingPass g) (fun ending => ending.Nodup ∧ ending ⊆ g.byName.keys)
      (fun ending => g.byName.keys.length - ending.length) g.endingNames .ok 1 := by
  rintro ending ⟨hnodup, hsub⟩
  obtain ⟨reached, hround⟩ := endingRound_total hg ending (List.Subset.refl _)
  obtain ⟨hle, hnodup', hsub'⟩ := extends_of_endingRound hround hnodup
  have hkeys : reached ⊆ g.byName.keys :=
    List.Subset.trans hsub' (List.append_subset.mpr ⟨hsub, List.Subset.refl _⟩)
  have hrun : ∀ k, g.endingNames (k + 1) ending =
      if reached.length = ending.length then .ok ending else g.endingNames k reached := by
    intro k
    rw [endingNames, hround]
    rfl
  by_cases hsame : reached.length = ending.length
  · exact .inl ⟨ending, .none hround hsame, fun k => by rw [hrun, if_pos hsame]⟩
  · refine .inr ⟨reached, .found hround hsame, ⟨hnodup', hkeys⟩, ?_, fun k => ?_⟩
    · have hbound := (hnodup'.subperm hkeys).length_le
      dsimp only
      omega
    · rw [hrun, if_neg hsame]

theorem ending_terminates (hg : g.Consistent) :
    ∃ names, Terminates (EndingPass g) g.byName.keys.length [] names ∧
      g.endless = .ok (g.nonterminals.keys.filter fun n => n ∉ names && n ∈ g.byName) := by
  obtain ⟨names, hterminates, hrun⟩ := (EndingPass.proceeds hg).terminates
    (EndingPass.deterministic g) ⟨List.nodup_nil, List.nil_subset _⟩
  exact ⟨names, hterminates, bind_eq_ok_iff.mpr ⟨names, hrun _ (Nat.le_refl _), rfl⟩⟩

/-! ### Symbols that are reached -/

/-- A symbol is searched from, and those that are found behind it are to be searched from as well.
The loop is left when there is none to search from. -/
inductive ExplorePass (g : Grammar) :
    List Symbol × List Symbol → Pass (List Symbol × List Symbol) → Prop where
  | next {n : Symbol} {pending seen fresh : List Symbol} :
    fresh = extend [] ((g.successors n).filter (· ∉ seen)) →
    ExplorePass g (n :: pending, seen) (.again (fresh ++ pending, seen ++ fresh))
  | done {seen : List Symbol} : ExplorePass g ([], seen) (.leave ([], seen))

theorem ExplorePass.deterministic (g : Grammar) : IsDeterministic (ExplorePass g) := by
  intro state p p' h h'
  cases h with
  | next hfresh =>
    cases h' with
    | next hfresh' => rw [hfresh, hfresh']
  | done =>
    cases h' with
    | done => rfl

/-- Each symbol is searched from once at most. -/
theorem ExplorePass.proceeds (hg : g.Consistent) (s : Symbol) :
    Proceeds (ExplorePass g) (fun state => Exploring g s state.1 state.2)
      (fun state => (g.explorable s).length + state.1.length - state.2.length)
      (fun k state => ([], g.explore k state.1 state.2)) id 0 := by
  rintro ⟨pending, seen⟩ hstate
  cases pending with
  | nil =>
    refine .inl ⟨([], seen), .done, fun k => ?_⟩
    cases k <;> rfl
  | cons n pending =>
    refine .inr ⟨_, .next rfl, hstate.step hg rfl, ?_, fun k => rfl⟩
    have hbound : seen.length ≤ (g.explorable s).length :=
      (hstate.nodup.subperm hstate.subset).length_le
    simp only [List.length_append, List.length_cons]
    omega

theorem explore_terminates (hg : g.Consistent) (hs : g.start = some s) :
    ∃ seen, Terminates (ExplorePass g) g.exploreSteps ([s], [s]) ([], seen) ∧
      g.unreachable = g.nonterminals.keys.filter (· ∉ seen) := by
  have hstart : Exploring g s [s] [s] :=
    ⟨List.nodup_singleton s, List.cons_subset_cons s (List.nil_subset _), fun n hn => .inl hn⟩
  have hsteps : (g.explorable s).length + [s].length - [s].length = g.exploreSteps := by
    simp [explorable, exploreSteps]
  obtain ⟨t, hterminates, hrun⟩ :=
    (ExplorePass.proceeds hg s).terminates (ExplorePass.deterministic g) (s := ([s], [s])) hstart
  rw [hsteps] at hterminates hrun
  obtain rfl := hrun g.exploreSteps (Nat.le_refl _)
  refine ⟨_, hterminates, ?_⟩
  unfold unreachable reachable
  rw [hs]

end Grammar

end ShiftReduce
