/-
Finite maps that remember the order in which their keys came in.

* `Assoc` — pairs of a key and a value, no key twice;
* `find?`, `keys`, `values` — the views;
* `alter` — a new value for a key, made from its old one; a new key comes last and an old key
  stays in its place;
* `find?_alter`, `keys_alter` — what altering does to the views;
* `erase` — the map without a key;
* `mem_erase`, `find?_erase` — what erasing does to the views.
-/
namespace ShiftReduce

/-- Pairs of a key and a value in the order in which the keys came in. -/
@[ext] structure Assoc (κ ν : Type) where
  /-- The pairs. -/
  entries : List (κ × ν)
  /-- No key occurs twice. -/
  nodup_keys : (entries.map Prod.fst).Nodup

namespace Assoc

variable {κ ν : Type}

/-- The map without keys. -/
def empty : Assoc κ ν := ⟨[], List.nodup_nil⟩

instance : EmptyCollection (Assoc κ ν) := ⟨empty⟩

instance : Inhabited (Assoc κ ν) := ⟨empty⟩

/-- The keys, in order. -/
def keys (m : Assoc κ ν) : List κ := m.entries.map Prod.fst

/-- The values, in the order of their keys. -/
def values (m : Assoc κ ν) : List ν := m.entries.map Prod.snd

/-- Whether there are no keys. -/
def isEmpty (m : Assoc κ ν) : Bool := m.entries.isEmpty

@[simp] theorem keys_empty : (∅ : Assoc κ ν).keys = [] := rfl

theorem nodup (m : Assoc κ ν) : m.keys.Nodup := m.nodup_keys

instance : Membership κ (Assoc κ ν) := ⟨fun m k => k ∈ m.keys⟩

theorem mem_def {m : Assoc κ ν} {k : κ} : k ∈ m ↔ k ∈ m.keys := Iff.rfl

variable [DecidableEq κ]

instance (m : Assoc κ ν) (k : κ) : Decidable (k ∈ m) := inferInstanceAs (Decidable (k ∈ m.keys))

/-- The value of a key. -/
def find? (m : Assoc κ ν) (k : κ) : Option ν := m.entries.lookup k

@[simp] theorem find?_empty (k : κ) : (∅ : Assoc κ ν).find? k = none := rfl

theorem find?_eq_none_iff {m : Assoc κ ν} {k : κ} : m.find? k = none ↔ k ∉ m := by
  rw [find?, List.lookup_eq_none_iff, mem_def, keys, List.mem_map]
  constructor
  · rintro h ⟨p, hp, rfl⟩
    simpa using h p hp
  · intro h p hp
    exact bne_iff_ne.2 fun e => h ⟨p, hp, e.symm⟩

theorem find?_isSome_iff {m : Assoc κ ν} {k : κ} : (m.find? k).isSome ↔ k ∈ m := by
  rw [Option.isSome_iff_ne_none, ne_eq, find?_eq_none_iff, Decidable.not_not]

/-! ### Altering a key -/

/-- The pairs with a new value for `k`, made from its old one. -/
def alterEntries (k : κ) (f : Option ν → ν) : List (κ × ν) → List (κ × ν)
  | [] => [(k, f none)]
  | e :: es => if e.1 = k then (k, f (some e.2)) :: es else e :: alterEntries k f es

theorem keys_alterEntries (k : κ) (f : Option ν → ν) (es : List (κ × ν)) :
    (alterEntries k f es).map Prod.fst
      = if k ∈ es.map Prod.fst then es.map Prod.fst else es.map Prod.fst ++ [k] := by
  induction es with
  | nil => simp [alterEntries]
  | cons e es ih =>
    rw [alterEntries]
    split
    · next h => simp [h]
    · next h =>
      have hne : k ≠ e.1 := fun he => h he.symm
      simp only [List.map_cons, ih, List.mem_cons, hne, false_or]
      split <;> rfl

theorem lookup_alterEntries (k : κ) (f : Option ν → ν) (es : List (κ × ν)) (k' : κ) :
    (alterEntries k f es).lookup k'
      = if k' = k then some (f (es.lookup k)) else es.lookup k' := by
  induction es with
  | nil =>
    by_cases h : k' = k
    · simp [alterEntries, h]
    · simp [alterEntries, List.lookup_cons, h, beq_false_of_ne h]
  | cons e es ih =>
    obtain ⟨a, b⟩ := e
    rw [alterEntries]
    split
    · next h =>
      simp only at h
      subst h
      by_cases h : k' = a
      · simp [h]
      · simp [List.lookup_cons, h, beq_false_of_ne h]
    · next h =>
      simp only at h
      rw [List.lookup_cons, List.lookup_cons, List.lookup_cons, ih]
      by_cases h' : k' = k
      · subst h'
        simp [beq_false_of_ne (fun he => h he.symm : k' ≠ a)]
      · simp [h']

/-- The map with a new value for `k`, made from its old one. -/
def alter (m : Assoc κ ν) (k : κ) (f : Option ν → ν) : Assoc κ ν where
  entries := alterEntries k f m.entries
  nodup_keys := by
    rw [keys_alterEntries]
    split
    · exact m.nodup_keys
    · next h =>
      refine List.nodup_append.2 ⟨m.nodup_keys, by simp, ?_⟩
      intro a ha b hb hab
      rw [List.mem_singleton] at hb
      exact h (hb ▸ hab ▸ ha)

/-- The map with the value `v` for `k`. -/
def insert (m : Assoc κ ν) (k : κ) (v : ν) : Assoc κ ν := m.alter k fun _ => v

theorem keys_alter (m : Assoc κ ν) (k : κ) (f : Option ν → ν) :
    (m.alter k f).keys = if k ∈ m then m.keys else m.keys ++ [k] :=
  keys_alterEntries k f m.entries

theorem find?_alter (m : Assoc κ ν) (k : κ) (f : Option ν → ν) (k' : κ) :
    (m.alter k f).find? k' = if k' = k then some (f (m.find? k)) else m.find? k' :=
  lookup_alterEntries k f m.entries k'

theorem mem_alter {m : Assoc κ ν} {k : κ} {f : Option ν → ν} {k' : κ} :
    k' ∈ m.alter k f ↔ k' = k ∨ k' ∈ m := by
  rw [mem_def, keys_alter]
  split
  · next h =>
    constructor
    · exact .inr
    · rintro (rfl | h')
      · exact h
      · exact h'
  · rw [List.mem_append, List.mem_singleton, or_comm, mem_def]

/-! ### Lists as values -/

/-- The map with `x` put at the end of the list of `k`, which starts out empty. -/
def append {α : Type} (m : Assoc κ (List α)) (k : κ) (x : α) : Assoc κ (List α) :=
  m.alter k fun old => old.getD [] ++ [x]

/-- The map with the key `k`, whose list starts out empty. -/
def touch {α : Type} (m : Assoc κ (List α)) (k : κ) : Assoc κ (List α) :=
  m.alter k fun old => old.getD []

/-! ### Erasing a key -/

/-- The map without the key `k`. -/
def erase (m : Assoc κ ν) (k : κ) : Assoc κ ν where
  entries := m.entries.filter fun e => e.1 ≠ k
  nodup_keys := m.nodup_keys.sublist (List.filter_sublist.map _)

theorem keys_erase (m : Assoc κ ν) (k : κ) : (m.erase k).keys = m.keys.filter (· ≠ k) := by
  simp only [erase, keys, List.filter_map]
  rfl

theorem mem_erase {m : Assoc κ ν} {k k' : κ} : k' ∈ m.erase k ↔ k' ∈ m ∧ k' ≠ k := by
  rw [mem_def, keys_erase, List.mem_filter, decide_eq_true_iff, mem_def]

theorem erase_of_not_mem {m : Assoc κ ν} {k : κ} (h : k ∉ m) : m.erase k = m := by
  refine Assoc.ext (List.filter_eq_self.mpr fun e he => ?_)
  exact decide_eq_true fun heq => h (heq ▸ List.mem_map_of_mem he)

theorem find?_erase (m : Assoc κ ν) (k k' : κ) :
    (m.erase k).find? k' = if k' = k then none else m.find? k' := by
  unfold find? erase
  dsimp only
  induction m.entries with
  | nil => simp
  | cons e es ih =>
    obtain ⟨a, b⟩ := e
    rw [List.filter_cons, List.lookup_cons]
    by_cases ha : a = k
    · subst ha
      rw [if_neg (by simp), ih]
      by_cases hk : k' = a
      · simp [hk]
      · simp [hk, beq_false_of_ne hk]
    · rw [if_pos (decide_eq_true ha), List.lookup_cons, ih]
      by_cases hk : k' = k
      · subst hk
        simp [beq_false_of_ne (Ne.symm ha)]
      · simp [hk]

end Assoc

end ShiftReduce
