/-
Lists without repeats, in the order in which their members came in.

* `extend l xs` — `l` followed by those members of `xs` that it lacks, each once;
* `mem_extend` — its members are those of both lists;
* `extend_extend` — further members can be added in one go or one list after the other;
* `extend_eq_append`, `extend_of_subset` — what is added are the members that `l` lacks;
* `prefix_extend` — it starts with `l`;
* `nodup_extend` — it repeats nothing if `l` does not.
-/
namespace ShiftReduce

variable {α : Type} [DecidableEq α]

/-- The list `l` followed by the members of the second list that it lacks, each once and in the
order of their first occurrence. -/
def extend (l : List α) : List α → List α
  | [] => l
  | x :: xs => if x ∈ l then extend l xs else extend (l ++ [x]) xs

@[simp] theorem extend_nil (l : List α) : extend l [] = l := rfl

@[simp] theorem mem_extend {a : α} {l xs : List α} : a ∈ extend l xs ↔ a ∈ l ∨ a ∈ xs := by
  induction xs generalizing l with
  | nil => simp
  | cons x xs ih =>
    rw [extend]
    split
    · next h =>
      rw [ih, List.mem_cons]
      constructor
      · rintro (h | h)
        · exact .inl h
        · exact .inr (.inr h)
      · rintro (h' | rfl | h')
        · exact .inl h'
        · exact .inl h
        · exact .inr h'
    · rw [ih, List.mem_append, List.mem_singleton, List.mem_cons, or_assoc]

theorem extend_extend (l xs ys : List α) : extend (extend l xs) ys = extend l (xs ++ ys) := by
  induction xs generalizing l with
  | nil => rfl
  | cons x xs ih =>
    rw [List.cons_append, extend, extend]
    split
    · exact ih l
    · exact ih (l ++ [x])

/-- What the first part of a list has is not added to it. -/
theorem extend_append (l l' xs : List α) :
    extend (l ++ l') xs = l ++ extend l' (xs.filter (· ∉ l)) := by
  induction xs generalizing l' with
  | nil => rfl
  | cons x xs ih =>
    rw [extend]
    by_cases hx : x ∈ l
    · rw [if_pos (List.mem_append_left l' hx), List.filter_cons_of_neg (by simpa using hx), ih]
    · rw [List.filter_cons_of_pos (by simpa using hx), extend]
      by_cases hx' : x ∈ l'
      · rw [if_pos (List.mem_append_right l hx'), if_pos hx', ih]
      · have hout : x ∉ l ++ l' := fun h => (List.mem_append.mp h).elim hx hx'
        rw [if_neg hout, if_neg hx', List.append_assoc, ih]

/-- What is added to a list are the members that it lacks. -/
theorem extend_eq_append (l xs : List α) : extend l xs = l ++ extend [] (xs.filter (· ∉ l)) := by
  rw [← extend_append, List.append_nil]

theorem extend_of_subset {l xs : List α} (h : xs ⊆ l) : extend l xs = l := by
  have hnone : xs.filter (· ∉ l) = [] :=
    List.filter_eq_nil_iff.mpr fun x hx => by simpa using h hx
  rw [extend_eq_append, hnone, extend_nil, List.append_nil]

theorem prefix_extend (l xs : List α) : l <+: extend l xs := by
  induction xs generalizing l with
  | nil => exact List.prefix_refl l
  | cons x xs ih =>
    rw [extend]
    split
    · exact ih l
    · exact (List.prefix_append l [x]).trans (ih _)

theorem nodup_extend {l : List α} (h : l.Nodup) (xs : List α) : (extend l xs).Nodup := by
  induction xs generalizing l with
  | nil => exact h
  | cons x xs ih =>
    rw [extend]
    split
    · exact ih h
    · next hx => exact ih (List.nodup_append.2 ⟨h, by simp, by simp; rintro a ha rfl; exact hx ha⟩)

end ShiftReduce
