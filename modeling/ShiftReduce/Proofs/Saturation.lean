/-
Inclusions that hold after enough rounds.

* `Inclusion.Holds` — the set of the target has all that the source gives;
* `Inclusion.applyAll_induction`, `Inclusion.saturate_induction` — what each inclusion keeps, a
  round keeps, and so do all of them;
* `Inclusion.grows_of_apply`, `Inclusion.grows_of_applyAll`, `Inclusion.grows_of_saturate` — sets
  are only extended;
* `Inclusion.apply_eq_of_holds`, `Inclusion.applyAll_eq_of_holds` — what holds already changes
  nothing;
* `Inclusion.apply_eq_of_applyAll` — a round that extends no set changes nothing in any of its
  steps;
* `Inclusion.saturate_ok` — rounds up to the bound end in sets for which all inclusions hold;
* `Inclusion.saturate_total` — they do not fail if every symbol that is looked up has a set;
* `Inclusion.exists_of_saturate_error` — if they fail, so does an inclusion on the way.
-/
import ShiftReduce.Inclusion
import ShiftReduce.Proofs.Growth
import ShiftReduce.Proofs.Outcome

namespace ShiftReduce

theorem SymbolSets.get_eq_ok_iff {sets : SymbolSets} {s : Symbol} {l : List Symbol} :
    SymbolSets.get sets s = .ok l ↔ sets.find? s = some l := by
  unfold SymbolSets.get
  cases sets.find? s with
  | none =>
    constructor
    · intro h
      cases h
    · intro h
      cases h
  | some l' => rw [Except.ok.injEq, Option.some_inj]

theorem SymbolSets.grow_eq_ok {sets sets' : SymbolSets} {s : Symbol} {found : List Symbol}
    (h : SymbolSets.grow sets s found = .ok sets') :
    (found = [] ∧ sets' = sets) ∨
      ∃ l, sets.find? s = some l ∧ sets' = sets.insert s (extend l found) := by
  unfold SymbolSets.grow at h
  split at h
  · next hempty =>
    obtain rfl := Except.ok.inj h
    exact .inl ⟨List.isEmpty_iff.mp hempty, rfl⟩
  · obtain ⟨l, hl, h⟩ := bind_eq_ok_iff.mp h
    obtain rfl := Except.ok.inj h
    exact .inr ⟨l, SymbolSets.get_eq_ok_iff.mp hl, rfl⟩

namespace Inclusion

/-- The set of the target has all that the source gives. -/
def Holds (c : Inclusion) (sets : SymbolSets) : Prop :=
  ∃ found, c.source sets = .ok found ∧ ∀ x ∈ found, sets.Has c.target x

/-- Sources give nothing but members of a stock, of sets that are within it. -/
def DrawsFrom (cs : List Inclusion) (stock : List Symbol) : Prop :=
  ∀ c ∈ cs, ∀ sets found, sets.Within stock → c.source sets = .ok found → found ⊆ stock

variable {c : Inclusion} {cs : List Inclusion} {sets sets' : SymbolSets} {stock : List Symbol}

theorem grows_of_apply (h : c.apply sets = .ok sets') : sets.Grows sets' := by
  obtain ⟨found, _, h⟩ := bind_eq_ok_iff.mp h
  rcases SymbolSets.grow_eq_ok h with ⟨_, rfl⟩ | ⟨l, hl, rfl⟩
  · exact .refl sets'
  · exact .insert hl (prefix_extend l found)

theorem within_of_apply (h : c.apply sets = .ok sets') (hsets : sets.Within stock)
    (hc : ∀ found, c.source sets = .ok found → found ⊆ stock) : sets'.Within stock := by
  obtain ⟨found, hfound, h⟩ := bind_eq_ok_iff.mp h
  rcases SymbolSets.grow_eq_ok h with ⟨_, rfl⟩ | ⟨l, hl, rfl⟩
  · exact hsets
  · intro s l' hl'
    rw [Assoc.find?_insert] at hl'
    split at hl'
    · obtain rfl := Option.some.inj hl'
      obtain ⟨hnodup, hsub⟩ := hsets _ _ hl
      refine ⟨nodup_extend hnodup found, fun x hx => ?_⟩
      rcases mem_extend.mp hx with hx | hx
      · exact hsub hx
      · exact hc found hfound hx
    · exact hsets s l' hl'

/-- What is in a set afterwards was there, or the source gave it for the target. -/
theorem has_of_apply (h : c.apply sets = .ok sets') {s x : Symbol} (hx : sets'.Has s x) :
    sets.Has s x ∨ s = c.target ∧ ∃ found, c.source sets = .ok found ∧ x ∈ found := by
  obtain ⟨found, hfound, h⟩ := bind_eq_ok_iff.mp h
  rcases SymbolSets.grow_eq_ok h with ⟨_, rfl⟩ | ⟨l, hl, rfl⟩
  · exact .inl hx
  · obtain ⟨l', hl', hmem⟩ := hx
    rw [Assoc.find?_insert] at hl'
    split at hl'
    · next hs =>
      obtain rfl := Option.some.inj hl'
      rcases mem_extend.mp hmem with hmem | hmem
      · exact .inl ⟨l, hs ▸ hl, hmem⟩
      · exact .inr ⟨hs, found, hfound, hmem⟩
    · exact .inl ⟨l', hl', hmem⟩

theorem find?_of_apply (h : c.apply sets = .ok sets') {s : Symbol} (hs : s ≠ c.target) :
    sets'.find? s = sets.find? s := by
  obtain ⟨found, _, h⟩ := bind_eq_ok_iff.mp h
  rcases SymbolSets.grow_eq_ok h with ⟨_, rfl⟩ | ⟨l, _, rfl⟩
  · rfl
  · rw [Assoc.find?_insert, if_neg hs]

theorem holds_of_apply_eq (h : c.apply sets = .ok sets) : c.Holds sets := by
  obtain ⟨found, hfound, h⟩ := bind_eq_ok_iff.mp h
  refine ⟨found, hfound, fun x hx => ?_⟩
  rcases SymbolSets.grow_eq_ok h with ⟨rfl, _⟩ | ⟨l, hl, hsets⟩
  · cases hx
  · refine ⟨extend l found, ?_, mem_extend.mpr (.inr hx)⟩
    conv_lhs => rw [hsets]
    rw [Assoc.find?_insert, if_pos rfl]

/-- An inclusion that holds changes nothing. -/
theorem apply_eq_of_holds (h : c.Holds sets) : c.apply sets = .ok sets := by
  obtain ⟨found, hfound, hall⟩ := h
  rw [apply, hfound]
  show SymbolSets.grow sets c.target found = .ok sets
  unfold SymbolSets.grow
  split
  · rfl
  · next hempty =>
    obtain ⟨x, hx⟩ := List.exists_mem_of_ne_nil _ (mt List.isEmpty_iff.mpr hempty)
    obtain ⟨own, hown, _⟩ := hall x hx
    have hsub : found ⊆ own := fun y hy => (Assoc.has_iff_of_find? hown).mp (hall y hy)
    rw [SymbolSets.get_eq_ok_iff.mpr hown]
    show Except.ok (sets.insert c.target (extend own found)) = .ok sets
    rw [extend_of_subset hsub, Assoc.insert_eq_self hown]

/-- A list without repeats is extended to one without repeats. -/
theorem nodup_of_apply (h : c.apply sets = .ok sets') {s : Symbol}
    (hs : ∀ l, sets.find? s = some l → l.Nodup) : ∀ l, sets'.find? s = some l → l.Nodup := by
  obtain ⟨found, _, h⟩ := bind_eq_ok_iff.mp h
  rcases SymbolSets.grow_eq_ok h with ⟨_, rfl⟩ | ⟨own, hown, rfl⟩
  · exact hs
  · intro l hl
    rw [Assoc.find?_insert] at hl
    split at hl
    · next heq =>
      obtain rfl := Option.some.inj hl
      exact nodup_extend (hs own (heq ▸ hown)) found
    · exact hs l hl

/-! ### Rounds -/

/-- What each inclusion keeps, a round keeps. -/
theorem applyAll_induction {I : SymbolSets → Prop}
    (keeps : ∀ c ∈ cs, ∀ sets sets', I sets → c.apply sets = .ok sets' → I sets')
    {outcome : Except Fault Unit} (h : applyAll cs sets = (sets', outcome)) (start : I sets) :
    I sets' := by
  induction cs generalizing sets with
  | nil =>
    obtain rfl := (Prod.mk.inj h).1
    exact start
  | cons c cs ih =>
    rw [applyAll] at h
    split at h
    · next happly =>
      have hfirst := keeps c (List.mem_cons_self ..) _ _ start happly
      exact ih (fun d hd => keeps d (List.mem_cons_of_mem c hd)) h hfirst
    · obtain rfl := (Prod.mk.inj h).1
      exact start

theorem grows_of_applyAll {outcome : Except Fault Unit} (h : applyAll cs sets = (sets', outcome)) :
    sets.Grows sets' :=
  applyAll_induction (fun _ _ _ _ hgrows happly => hgrows.trans (grows_of_apply happly)) h
    (.refl sets)

theorem within_of_applyAll (hcs : DrawsFrom cs stock) (hsets : sets.Within stock)
    {outcome : Except Fault Unit} (h : applyAll cs sets = (sets', outcome)) : sets'.Within stock :=
  applyAll_induction (fun c hc sets _ hsets happly =>
    within_of_apply happly hsets fun found hfound => hcs c hc sets found hsets hfound) h hsets

/-- A round that extends no set changes nothing in any of its steps. -/
theorem apply_eq_of_applyAll (h : applyAll cs sets = (sets, .ok ())) :
    ∀ c ∈ cs, c.apply sets = .ok sets := by
  induction cs with
  | nil =>
    intro c hc
    cases hc
  | cons c cs ih =>
    rw [applyAll] at h
    split at h
    · next reached happly =>
      -- The first step only extends the sets, and so do the others, which end where it began.
      obtain rfl := (grows_of_apply happly).antisymm (grows_of_applyAll h)
      intro d hd
      rcases List.mem_cons.mp hd with rfl | hd
      · exact happly
      · exact ih h d hd
    · cases (Prod.mk.inj h).2

theorem applyAll_eq_of_holds (h : ∀ c ∈ cs, c.Holds sets) : applyAll cs sets = (sets, .ok ()) := by
  induction cs with
  | nil => rfl
  | cons c cs ih =>
    rw [applyAll, apply_eq_of_holds (h c (List.mem_cons_self ..))]
    exact ih fun d hd => h d (List.mem_cons_of_mem c hd)

theorem round_eq_ok {b : Bool} (h : round cs sets = (sets', .ok b)) :
    applyAll cs sets = (sets', .ok ()) ∧ b = decide (sets.total < sets'.total) := by
  unfold round at h
  cases hall : applyAll cs sets with
  | mk reached outcome =>
    rw [hall] at h
    cases outcome with
    | error fault => cases (Prod.mk.inj h).2
    | ok _ =>
      obtain ⟨rfl, hb⟩ := Prod.mk.inj h
      exact ⟨rfl, (Except.ok.inj hb).symm⟩

/-- What each inclusion keeps, all rounds keep. -/
theorem saturate_induction {I : SymbolSets → Prop}
    (keeps : ∀ c ∈ cs, ∀ sets sets', I sets → c.apply sets = .ok sets' → I sets') {rounds : Nat}
    {outcome : Except Fault Unit} (h : saturate cs rounds sets = (sets', outcome))
    (start : I sets) : I sets' := by
  induction rounds generalizing sets with
  | zero =>
    obtain rfl := (Prod.mk.inj h).1
    exact start
  | succ rounds ih =>
    have hround : ∀ {reached flag}, round cs sets = (reached, flag) → I reached := by
      rintro _ _ hreached
      have hall : I (round cs sets).1 := applyAll_induction keeps rfl start
      rwa [hreached] at hall
    rw [saturate] at h
    split at h
    · next hreached => exact ih h (hround hreached)
    · next hreached =>
      obtain rfl := (Prod.mk.inj h).1
      exact hround hreached
    · next hreached =>
      obtain rfl := (Prod.mk.inj h).1
      exact hround hreached

theorem grows_of_saturate {rounds : Nat} {outcome : Except Fault Unit}
    (h : saturate cs rounds sets = (sets', outcome)) : sets.Grows sets' :=
  saturate_induction (fun _ _ _ _ hgrows happly => hgrows.trans (grows_of_apply happly)) h
    (.refl sets)

/-- Rounds up to the bound end in sets for which all inclusions hold: each round but the last adds
a member, and the stock bounds how many there can be. -/
theorem saturate_ok {rounds : Nat} (hcs : DrawsFrom cs stock) (hsets : sets.Within stock)
    (hrounds : sets.keys.length * stock.length < rounds + sets.total)
    (h : saturate cs rounds sets = (sets', .ok ())) :
    sets.Grows sets' ∧ sets'.Within stock ∧ ∀ c ∈ cs, c.Holds sets' := by
  induction rounds generalizing sets with
  | zero =>
    -- No sets over the stock have so many members.
    have hbound := hsets.total_le
    omega
  | succ rounds ih =>
    rw [saturate] at h
    split at h
    · next reached hround =>
      obtain ⟨hall, hgrew⟩ := round_eq_ok hround
      have hgrew : sets.total < reached.total := of_decide_eq_true hgrew.symm
      have hgrows := grows_of_applyAll hall
      obtain ⟨hgrows', hwithin, hholds⟩ :=
        ih (within_of_applyAll hcs hsets hall) (by rw [← hgrows.keys_eq]; omega) h
      exact ⟨hgrows.trans hgrows', hwithin, hholds⟩
    · next reached hround =>
      obtain ⟨hall, hsame⟩ := round_eq_ok hround
      have hsame : ¬sets.total < reached.total := of_decide_eq_false hsame.symm
      obtain rfl := (Prod.mk.inj h).1
      obtain rfl := (grows_of_applyAll hall).eq_of_total_le (by omega)
      exact ⟨.refl sets, hsets, fun c hc => holds_of_apply_eq (apply_eq_of_applyAll hall c hc)⟩
    · cases (Prod.mk.inj h).2

/-! ### Success -/

/-- Wherever the sets are those of the given symbols, each target has a set and each source gives
something. -/
def Total (cs : List Inclusion) (keys : List Symbol) : Prop :=
  ∀ c ∈ cs, c.target ∈ keys ∧
    ∀ sets : SymbolSets, sets.keys = keys → ∃ found, c.source sets = .ok found

theorem exists_apply {found : List Symbol} (htarget : c.target ∈ sets)
    (hsource : c.source sets = .ok found) : ∃ sets', c.apply sets = .ok sets' := by
  obtain ⟨own, hown⟩ := Assoc.exists_find? htarget
  rw [apply, hsource]
  show ∃ sets', SymbolSets.grow sets c.target found = .ok sets'
  unfold SymbolSets.grow
  split
  · exact ⟨sets, rfl⟩
  · rw [SymbolSets.get_eq_ok_iff.mpr hown]
    exact ⟨_, rfl⟩

theorem applyAll_total (h : Total cs sets.keys) : ∃ sets', applyAll cs sets = (sets', .ok ()) := by
  induction cs generalizing sets with
  | nil => exact ⟨sets, rfl⟩
  | cons c cs ih =>
    obtain ⟨htarget, hsource⟩ := h c (List.mem_cons_self ..)
    obtain ⟨found, hfound⟩ := hsource sets rfl
    obtain ⟨reached, happly⟩ := exists_apply htarget hfound
    rw [applyAll, happly]
    refine ih fun d hd => ?_
    rw [← (grows_of_apply happly).keys_eq]
    exact h d (List.mem_cons_of_mem c hd)

theorem saturate_total {rounds : Nat} (h : Total cs sets.keys) :
    ∃ sets', saturate cs rounds sets = (sets', .ok ()) := by
  induction rounds generalizing sets with
  | zero => exact ⟨sets, rfl⟩
  | succ rounds ih =>
    obtain ⟨reached, hall⟩ := applyAll_total h
    have hround : round cs sets = (reached, .ok (decide (sets.size < reached.size))) := by
      rw [round, hall]
      rfl
    rw [saturate, hround]
    cases decide (sets.size < reached.size) with
    | true => exact ih ((grows_of_applyAll hall).keys_eq ▸ h)
    | false => exact ⟨reached, rfl⟩

theorem saturate_nil (rounds : Nat) (sets : SymbolSets) :
    saturate [] rounds sets = (sets, .ok ()) := by
  cases rounds with
  | zero => rfl
  | succ rounds =>
    have hround : round [] sets = (sets, .ok false) := by simp [round, applyAll, Except.map]
    rw [saturate, hround]

/-! ### Failure -/

variable {fault : Fault}

theorem exists_of_applyAll_error (h : applyAll cs sets = (sets', .error fault)) :
    ∃ c ∈ cs, ∃ before, sets.Grows before ∧ c.apply before = .error fault := by
  induction cs generalizing sets with
  | nil => cases (Prod.mk.inj h).2
  | cons c cs ih =>
    rw [applyAll] at h
    split at h
    · next reached happly =>
      obtain ⟨d, hd, before, hgrows, hfails⟩ := ih h
      exact ⟨d, List.mem_cons_of_mem c hd, before, (grows_of_apply happly).trans hgrows, hfails⟩
    · next happly =>
      obtain rfl := Except.error.inj (Prod.mk.inj h).2
      exact ⟨c, List.mem_cons_self .., sets, .refl sets, happly⟩

/-- Rounds fail only if an inclusion does. -/
theorem exists_of_saturate_error {rounds : Nat}
    (h : saturate cs rounds sets = (sets', .error fault)) :
    ∃ c ∈ cs, ∃ before, sets.Grows before ∧ c.apply before = .error fault := by
  induction rounds generalizing sets with
  | zero => cases (Prod.mk.inj h).2
  | succ rounds ih =>
    rw [saturate] at h
    split at h
    · next reached hround =>
      obtain ⟨c, hc, before, hgrows, hfails⟩ := ih h
      exact ⟨c, hc, before, (grows_of_applyAll (round_eq_ok hround).1).trans hgrows, hfails⟩
    · cases (Prod.mk.inj h).2
    · next reached fault' hround =>
      obtain rfl := Except.error.inj (Prod.mk.inj h).2
      unfold round at hround
      cases hall : applyAll cs sets with
      | mk reached outcome =>
        rw [hall] at hround
        cases outcome with
        | ok _ => cases (Prod.mk.inj hround).2
        | error _ =>
          obtain rfl := Except.error.inj (Prod.mk.inj hround).2
          exact exists_of_applyAll_error hall

end Inclusion

end ShiftReduce
