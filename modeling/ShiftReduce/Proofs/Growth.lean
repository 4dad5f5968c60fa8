/-
Maps of lists that grow.

FIRST sets, FOLLOW sets and closure tables are all computed in the same way: lists without repeats
are extended, round after round, until a round extends none of them. Here is what this needs to
come to an end, and to have come to one.

* `Assoc.isEmpty_iff`, `Assoc.ne_empty_of_mem` — maps without keys;
* `Assoc.ext_find?` — maps that are the same by their values;
* `Assoc.insert_eq_self`, `Assoc.insert_insert` — values that are given again;
* `Assoc.Grows` — every list of one map is the beginning of its list in another;
* `Assoc.Grows.eq_of_total_le` — a map that grows by no member does not change;
* `Assoc.Within`, `Assoc.Within.total_le` — lists without repeats over a stock of members, and
  how many members they have at most.
-/
import ShiftReduce.SymbolSets
import Mathlib.Data.List.Forall2
import Mathlib.Data.List.Perm.Subperm

namespace ShiftReduce.Assoc

variable {κ ν α : Type}

/-! ### Entries -/

theorem isEmpty_iff {m : Assoc κ ν} : m.isEmpty = true ↔ m = ∅ := by
  rw [isEmpty, List.isEmpty_iff]
  exact ⟨fun h => Assoc.ext h, fun h => congrArg entries h⟩

theorem ne_empty_of_mem {m : Assoc κ ν} {k : κ} (h : k ∈ m) : m ≠ ∅ := by
  rintro rfl
  cases h

section Entries

variable [DecidableEq κ]

theorem lookup_eq_some_iff {es : List (κ × ν)} (h : (es.map Prod.fst).Nodup) {k : κ} {v : ν} :
    es.lookup k = some v ↔ (k, v) ∈ es := by
  induction es with
  | nil => simp
  | cons e es ih =>
    obtain ⟨a, b⟩ := e
    rw [List.map_cons, List.nodup_cons] at h
    rw [List.lookup_cons, List.mem_cons, Prod.mk.injEq]
    by_cases ha : k = a
    · subst ha
      have hout : (k, v) ∉ es := fun hmem => h.1 (List.mem_map.mpr ⟨(k, v), hmem, rfl⟩)
      simp [hout, eq_comm]
    · have hbeq : (k == a) = false := beq_false_of_ne ha
      simp [hbeq, ha, ih h.2]

theorem find?_eq_some_iff {m : Assoc κ ν} {k : κ} {v : ν} :
    m.find? k = some v ↔ (k, v) ∈ m.entries := lookup_eq_some_iff m.nodup_keys

theorem exists_find? {m : Assoc κ ν} {k : κ} (h : k ∈ m) : ∃ v, m.find? k = some v :=
  Option.isSome_iff_exists.mp (find?_isSome_iff.mpr h)

theorem mem_of_find? {m : Assoc κ ν} {k : κ} {v : ν} (h : m.find? k = some v) : k ∈ m :=
  find?_isSome_iff.mp (h ▸ rfl)

theorem find?_insert (m : Assoc κ ν) (k : κ) (v : ν) (k' : κ) :
    (m.insert k v).find? k' = if k' = k then some v else m.find? k' := find?_alter ..

theorem mem_insert_of_find? {m : Assoc κ ν} {k k' : κ} {v v' : ν} (h : m.find? k = some v) :
    k' ∈ m.insert k v' ↔ k' ∈ m := by
  rw [insert, mem_alter, or_iff_right_of_imp]
  rintro rfl
  exact mem_of_find? h

/-- Maps with the same keys in the same order and with the same values are the same. -/
theorem ext_find? {m m' : Assoc κ ν} (hkeys : m.keys = m'.keys)
    (h : ∀ k, m.find? k = m'.find? k) : m = m' := by
  have hentries : ∀ m : Assoc κ ν,
      m.entries = m.keys.filterMap fun k => (m.find? k).map fun v => (k, v) := by
    intro m
    rw [keys, List.filterMap_map]
    conv_lhs => rw [← List.filterMap_some (l := m.entries)]
    refine List.filterMap_congr fun e he => ?_
    rw [Function.comp_apply, find?_eq_some_iff.mpr he, Option.map_some]
  refine Assoc.ext ?_
  rw [hentries m, hentries m', hkeys]
  simp only [h]

/-- The value that a key has already. -/
theorem insert_eq_self {m : Assoc κ ν} {k : κ} {v : ν} (h : m.find? k = some v) :
    m.insert k v = m := by
  have hentries : ∀ es : List (κ × ν), es.lookup k = some v →
      alterEntries k (fun _ => v) es = es := by
    intro es hes
    induction es with
    | nil => cases hes
    | cons e es ih =>
      obtain ⟨a, b⟩ := e
      rw [List.lookup_cons] at hes
      rw [alterEntries]
      by_cases ha : a = k
      · subst ha
        obtain rfl : b = v := by simpa using hes
        rw [if_pos rfl]
      · have hbeq : (k == a) = false := beq_false_of_ne fun h => ha h.symm
        rw [hbeq] at hes
        rw [if_neg ha, ih hes]
  exact Assoc.ext (hentries m.entries h)

/-- The last value that a key gets is the one that it has. -/
theorem insert_insert (m : Assoc κ ν) (k : κ) (v v' : ν) :
    (m.insert k v).insert k v' = m.insert k v' := by
  refine Assoc.ext ?_
  show alterEntries k (fun _ => v') (alterEntries k (fun _ => v) m.entries) =
    alterEntries k (fun _ => v') m.entries
  induction m.entries with
  | nil => simp [alterEntries]
  | cons e es ih =>
    by_cases he : e.1 = k
    · simp [alterEntries, he]
    · simp [alterEntries, he, ih]

theorem find?_foldl_insert (ks : List κ) (f : κ → ν) (m : Assoc κ ν) (k : κ) :
    (ks.foldl (fun m k => m.insert k (f k)) m).find? k =
      if k ∈ ks then some (f k) else m.find? k := by
  induction ks generalizing m with
  | nil => simp
  | cons a ks ih =>
    rw [List.foldl_cons, ih, find?_insert]
    by_cases hk : k ∈ ks
    · simp [hk]
    · by_cases ha : k = a <;> simp [hk, ha]

end Entries

/-! ### Growing -/

/-- Every list is the beginning of the list of the same key, in the same place. -/
def EntriesGrow (es es' : List (κ × List α)) : Prop :=
  List.Forall₂ (fun e e' => e.1 = e'.1 ∧ e.2 <+: e'.2) es es'

/-- Every list of one map is the beginning of its list in the other. -/
def Grows (m m' : Assoc κ (List α)) : Prop := EntriesGrow m.entries m'.entries

/-- How many members all lists have together. -/
def total (m : Assoc κ (List α)) : Nat := m.values.flatten.length

theorem EntriesGrow.trans {es₁ es₂ es₃ : List (κ × List α)} (h : EntriesGrow es₁ es₂)
    (h' : EntriesGrow es₂ es₃) : EntriesGrow es₁ es₃ := by
  induction h generalizing es₃ with
  | nil => exact h'
  | cons hd _ ih =>
    cases h' with
    | cons hd' tl' => exact .cons ⟨hd.1.trans hd'.1, hd.2.trans hd'.2⟩ (ih tl')

theorem EntriesGrow.keys_eq {es es' : List (κ × List α)} (h : EntriesGrow es es') :
    es.map Prod.fst = es'.map Prod.fst := by
  induction h with
  | nil => rfl
  | cons hd _ ih => rw [List.map_cons, List.map_cons, hd.1, ih]

theorem EntriesGrow.total_le {es es' : List (κ × List α)} (h : EntriesGrow es es') :
    (es.map Prod.snd).flatten.length ≤ (es'.map Prod.snd).flatten.length := by
  induction h with
  | nil => exact Nat.le_refl _
  | cons hd _ ih =>
    simp only [List.map_cons, List.flatten_cons, List.length_append]
    exact Nat.add_le_add hd.2.length_le ih

theorem EntriesGrow.eq_of_total_le {es es' : List (κ × List α)} (h : EntriesGrow es es')
    (hle : (es'.map Prod.snd).flatten.length ≤ (es.map Prod.snd).flatten.length) : es = es' := by
  induction h with
  | nil => rfl
  | @cons e e' es es' hd tl ih =>
    simp only [List.map_cons, List.flatten_cons, List.length_append] at hle
    have hhead := hd.2.length_le
    have htail := EntriesGrow.total_le tl
    have hlist : e.2 = e'.2 := hd.2.eq_of_length (by omega)
    rw [ih (by omega), Prod.ext hd.1 hlist]

namespace Grows

variable {m m₁ m₂ m₃ : Assoc κ (List α)}

theorem refl (m : Assoc κ (List α)) : m.Grows m :=
  List.forall₂_same.mpr fun _ _ => ⟨rfl, List.prefix_refl _⟩

theorem trans (h : m₁.Grows m₂) (h' : m₂.Grows m₃) : m₁.Grows m₃ := EntriesGrow.trans h h'

theorem keys_eq (h : m₁.Grows m₂) : m₁.keys = m₂.keys := EntriesGrow.keys_eq h

theorem total_le (h : m₁.Grows m₂) : m₁.total ≤ m₂.total := EntriesGrow.total_le h

theorem eq_of_total_le (h : m₁.Grows m₂) (hle : m₂.total ≤ m₁.total) : m₁ = m₂ :=
  Assoc.ext (EntriesGrow.eq_of_total_le h hle)

theorem antisymm (h : m₁.Grows m₂) (h' : m₂.Grows m₁) : m₁ = m₂ := h.eq_of_total_le h'.total_le

variable [DecidableEq κ]

theorem exists_find? (h : m₁.Grows m₂) {k : κ} {l : List α} (hl : m₁.find? k = some l) :
    ∃ l', m₂.find? k = some l' ∧ l <+: l' := by
  rw [find?_eq_some_iff] at hl
  obtain ⟨i, hi, he⟩ := List.mem_iff_getElem.mp hl
  obtain ⟨hlen, hget⟩ := List.forall₂_iff_get.mp h
  have hi' : i < m₂.entries.length := hlen ▸ hi
  have hi'' := hget i hi hi'
  rw [List.get_eq_getElem, List.get_eq_getElem, he] at hi''
  refine ⟨m₂.entries[i].2, find?_eq_some_iff.mpr ?_, hi''.2⟩
  have hk : k = m₂.entries[i].1 := hi''.1
  rw [hk]
  exact List.getElem_mem hi'

theorem insert {k : κ} {l l' : List α} (hl : m.find? k = some l) (hl' : l <+: l') :
    m.Grows (m.insert k l') := by
  unfold Grows Assoc.insert alter
  unfold find? at hl
  dsimp only
  generalize m.entries = es at hl ⊢
  induction es with
  | nil => cases hl
  | cons e es ih =>
    rw [alterEntries]
    rw [List.lookup_cons] at hl
    -- Only the entry of the key changes, and it stays in its place.
    by_cases he : e.1 = k
    · have hlist : e.2 = l := by
        subst he
        simpa using hl
      rw [if_pos he]
      exact .cons ⟨he, hlist ▸ hl'⟩ (List.forall₂_same.mpr fun _ _ => ⟨rfl, List.prefix_refl _⟩)
    · have hbeq : (k == e.1) = false := beq_false_of_ne fun h => he h.symm
      rw [hbeq] at hl
      rw [if_neg he]
      exact .cons ⟨rfl, List.prefix_refl _⟩ (ih hl)

end Grows

/-! ### Stocks of members -/

/-- Lists without repeats whose members come from a stock. -/
def Within [DecidableEq κ] (m : Assoc κ (List α)) (stock : List α) : Prop :=
  ∀ k l, m.find? k = some l → l.Nodup ∧ l ⊆ stock

theorem Within.total_le [DecidableEq κ] {m : Assoc κ (List α)} {stock : List α}
    (h : m.Within stock) : m.total ≤ m.keys.length * stock.length := by
  have hlists : ∀ e ∈ m.entries, e.2.length ≤ stock.length := by
    intro e he
    obtain ⟨hnodup, hsub⟩ := h e.1 e.2 (find?_eq_some_iff.mpr he)
    exact (hnodup.subperm hsub).length_le
  unfold total values keys
  generalize m.entries = es at hlists ⊢
  induction es with
  | nil => exact Nat.zero_le _
  | cons e es ih =>
    simp only [List.map_cons, List.flatten_cons, List.length_append, List.length_cons]
    have hhead := hlists e (List.mem_cons_self ..)
    have htail := ih fun e' he' => hlists e' (List.mem_cons_of_mem e he')
    rw [Nat.succ_mul]
    omega

/-- Whether the list of a key has a member. -/
def Has [DecidableEq κ] (m : Assoc κ (List α)) (k : κ) (a : α) : Prop :=
  ∃ l, m.find? k = some l ∧ a ∈ l

theorem has_iff_of_find? [DecidableEq κ] {m : Assoc κ (List α)} {k : κ} {l : List α} {a : α}
    (hl : m.find? k = some l) : m.Has k a ↔ a ∈ l := by
  constructor
  · rintro ⟨l', hl', ha⟩
    obtain rfl := Option.some.inj (hl.symm.trans hl')
    exact ha
  · exact fun ha => ⟨l, hl, ha⟩

theorem mem_getD_find?_iff [DecidableEq κ] {m : Assoc κ (List α)} {k : κ} {a : α} :
    a ∈ (m.find? k).getD [] ↔ m.Has k a := by
  constructor
  · intro ha
    cases hl : m.find? k with
    | none =>
      rw [hl] at ha
      cases ha
    | some l =>
      rw [hl] at ha
      exact ⟨l, hl, ha⟩
  · rintro ⟨l, hl, ha⟩
    rw [hl]
    exact ha

theorem Has.mem [DecidableEq κ] {m : Assoc κ (List α)} {k : κ} {a : α} (h : m.Has k a) : k ∈ m := by
  obtain ⟨l, hl, _⟩ := h
  exact mem_of_find? hl

theorem Grows.has [DecidableEq κ] {m m' : Assoc κ (List α)} (h : m.Grows m') {k : κ} {a : α}
    (ha : m.Has k a) : m'.Has k a := by
  obtain ⟨l, hl, hmem⟩ := ha
  obtain ⟨l', hl', hbegin⟩ := h.exists_find? hl
  exact ⟨l', hl', hbegin.subset hmem⟩

end ShiftReduce.Assoc
