/-
Outcomes of steps that can fail.

A chain of steps succeeds if each of its steps does. These statements take such a chain apart.

* `bind_eq_ok_iff`, `map_eq_ok_iff` — a step after another, and a value made from that of a step;
* `exists_of_toOption` — a view of the value shows that there is one;
* `foldlM_total` — a fold whose every step succeeds, and what its steps keep;
* `foldlM_related` — a fold that succeeds as another does, if each of its steps does;
* `mapM_eq_ok_iff`, `exists_mapM`, `exists_eq_map_of_mapM` — a list of outcomes succeeds if each of
  them does;
* `mapM_ite_error` — and fails as some of them do that are replaced by a failure;
* `mapM_option_eq_map` — and so does a list of values that may be absent.
-/
import Mathlib.Data.List.Forall2

namespace ShiftReduce

variable {ε α β γ : Type}

theorem bind_eq_ok_iff {x : Except ε α} {f : α → Except ε β} {b : β} :
    x >>= f = .ok b ↔ ∃ a, x = .ok a ∧ f a = .ok b := by
  cases x with
  | error e =>
    constructor
    · intro h
      cases h
    · rintro ⟨a, h, _⟩
      cases h
  | ok a =>
    constructor
    · intro h
      exact ⟨a, rfl, h⟩
    · rintro ⟨a', h, h'⟩
      cases h
      exact h'

theorem map_eq_ok_iff {x : Except ε α} {f : α → β} {b : β} :
    f <$> x = .ok b ↔ ∃ a, x = .ok a ∧ f a = b := by
  cases x with
  | error e =>
    constructor
    · intro h
      cases h
    · rintro ⟨a, h, _⟩
      cases h
  | ok a =>
    constructor
    · intro h
      exact ⟨a, rfl, Except.ok.inj h⟩
    · rintro ⟨a', h, rfl⟩
      cases h
      rfl

/-- A view of the value of a step shows that the step succeeds. -/
theorem exists_of_toOption {x : Except ε α} {view : α → β} {b : β}
    (h : x.toOption.map view = some b) : ∃ a, x = .ok a ∧ view a = b := by
  cases x with
  | error e => cases h
  | ok a => exact ⟨a, rfl, Option.some.inj h⟩

/-- A fold succeeds if each of its steps does from what the steps before it kept. What is kept may
speak of the members that are still to come. -/
theorem foldlM_total {f : β → α → Except ε β} {I : List α → β → Prop}
    (step : ∀ a l b, I (a :: l) b → ∃ b', f b a = .ok b' ∧ I l b') {l : List α} {b : β}
    (start : I l b) : ∃ b', l.foldlM f b = .ok b' ∧ I [] b' := by
  induction l generalizing b with
  | nil => exact ⟨b, rfl, start⟩
  | cons a l ih =>
    obtain ⟨c, hc, hI⟩ := step a l b start
    obtain ⟨b', h, hb'⟩ := ih hI
    refine ⟨b', ?_, hb'⟩
    rw [List.foldlM_cons, hc]
    exact h

/-- A fold succeeds as another does if each of its steps does, from values that are related to
values that are related. -/
theorem foldlM_related {f f' : β → α → Except ε β} {R : β → β → Prop}
    (step : ∀ a b b' c, R b b' → f b a = .ok c → ∃ c', f' b' a = .ok c' ∧ R c c') {l : List α}
    {b b' c : β} (start : R b b') (h : l.foldlM f b = .ok c) :
    ∃ c', l.foldlM f' b' = .ok c' ∧ R c c' := by
  induction l generalizing b b' with
  | nil =>
    obtain rfl := Except.ok.inj h
    exact ⟨b', rfl, start⟩
  | cons a l ih =>
    rw [List.foldlM_cons] at h
    obtain ⟨d, hd, hrest⟩ := bind_eq_ok_iff.mp h
    obtain ⟨d', hd', hR⟩ := step a b b' d start hd
    obtain ⟨c', hc', hfinal⟩ := ih hR hrest
    refine ⟨c', ?_, hfinal⟩
    rw [List.foldlM_cons, hd']
    exact hc'

/-- Members of the result come from members of the list, in order. -/
theorem mapM_eq_ok_iff {f : α → Except ε β} {l : List α} {bs : List β} :
    l.mapM f = .ok bs ↔ List.Forall₂ (fun a b => f a = .ok b) l bs := by
  induction l generalizing bs with
  | nil =>
    rw [List.mapM_nil, List.forall₂_nil_left_iff]
    constructor
    · intro h
      exact (Except.ok.inj h).symm
    · rintro rfl
      rfl
  | cons a l ih =>
    rw [List.mapM_cons, bind_eq_ok_iff, List.forall₂_cons_left_iff]
    constructor
    · rintro ⟨b, hb, h⟩
      obtain ⟨bs', hbs', h⟩ := bind_eq_ok_iff.mp h
      exact ⟨b, bs', hb, ih.mp hbs', (Except.ok.inj h).symm⟩
    · rintro ⟨b, bs', hb, hbs', rfl⟩
      exact ⟨b, hb, bind_eq_ok_iff.mpr ⟨bs', ih.mpr hbs', rfl⟩⟩

theorem exists_mapM {f : α → Except ε β} {l : List α} (h : ∀ a ∈ l, ∃ b, f a = .ok b) :
    ∃ bs, l.mapM f = .ok bs := by
  induction l with
  | nil => exact ⟨[], rfl⟩
  | cons a l ih =>
    obtain ⟨b, hb⟩ := h a (List.mem_cons_self ..)
    obtain ⟨bs, hbs⟩ := ih fun x hx => h x (List.mem_cons_of_mem a hx)
    exact ⟨b :: bs, mapM_eq_ok_iff.mpr (.cons hb (mapM_eq_ok_iff.mp hbs))⟩

/-- A list of outcomes that succeeds is a list of values. -/
theorem exists_eq_map_of_mapM [Inhabited β] {f : α → Except ε β} {l : List α} {bs : List β}
    (h : l.mapM f = .ok bs) : ∃ F : α → β, bs = l.map F ∧ ∀ a ∈ l, f a = .ok (F a) := by
  obtain ⟨F, hF⟩ : ∃ F : α → β, ∀ a b, f a = .ok b → F a = b :=
    ⟨fun a => (f a).toOption.getD default, fun a b hab => by
      simp only [hab, Except.toOption, Option.getD_some]⟩
  refine ⟨F, ?_⟩
  have hall := mapM_eq_ok_iff.mp h
  clear h
  induction hall with
  | nil => exact ⟨rfl, fun a ha => absurd ha List.not_mem_nil⟩
  | cons hab _ ih =>
    obtain ⟨rfl, ih⟩ := ih
    obtain rfl := hF _ _ hab
    refine ⟨rfl, fun a ha => ?_⟩
    rcases List.mem_cons.mp ha with rfl | ha
    · exact hab
    · exact ih a ha

/-- A list of outcomes of which some are replaced by one failure. -/
theorem mapM_ite_error {f : α → Except ε β} {P : α → Prop} [DecidablePred P] {l : List α}
    {bs : List β} {e : ε} (h : l.mapM f = .ok bs) :
    l.mapM (fun a => if P a then .error e else f a) =
      if ∃ a ∈ l, P a then .error e else .ok bs := by
  induction l generalizing bs with
  | nil =>
    obtain rfl : [] = bs := Except.ok.inj h
    simp [pure, Except.pure]
  | cons a l ih =>
    rw [List.mapM_cons] at h ⊢
    obtain ⟨b, hb, h⟩ := bind_eq_ok_iff.mp h
    obtain ⟨bs', hbs', h⟩ := bind_eq_ok_iff.mp h
    obtain rfl := Except.ok.inj h
    by_cases ha : P a
    · rw [if_pos ha, if_pos ⟨a, List.mem_cons_self .., ha⟩]
      rfl
    · have hexists : (∃ x ∈ a :: l, P x) ↔ ∃ x ∈ l, P x := by simp [ha]
      rw [if_neg ha, hb, ih hbs', if_congr hexists rfl rfl]
      split <;> rfl

/-- Values that are all there, in a list. -/
theorem mapM_option_eq_map {f : α → Option β} {g : α → β} {l : List α}
    (h : ∀ a ∈ l, f a = some (g a)) : l.mapM f = some (l.map g) := by
  induction l with
  | nil => rfl
  | cons a l ih =>
    obtain ⟨ha, hl⟩ := List.forall_mem_cons.mp h
    rw [List.mapM_cons, ha, ih hl]
    rfl

end ShiftReduce
