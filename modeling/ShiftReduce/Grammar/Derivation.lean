/-
Derivations.

A derivation replaces names by right sides of rules, one at a time. A rightmost derivation always
replaces the last name that can be replaced, so what stands behind it are terminals; it is told by
the numbers of the productions that it uses.

* `Produces`, `Derives` — one step, and any number of steps;
* `Derives.trans`, `Derives.context` — derivations can be put together and take place anywhere;
* `Grammar.IsSentence` — a text of terminals that is derived from the start symbol;
* `Grammar.RightmostStep`, `Grammar.Rightmost` — one rightmost step, and a list of them;
* `Grammar.Rightmost.derives` — a rightmost derivation is a derivation.
-/
import ShiftReduce.Grammar.Basic

namespace ShiftReduce

/-- One step: a name is replaced by the right side of one of its rules. -/
inductive Produces (rs : List Rule) : List Symbol → List Symbol → Prop where
  | replace (left right : List Symbol) {r : Rule} (mem : r ∈ rs) :
    Produces rs (left ++ r.name :: right) (left ++ (r.rhs ++ right))

/-- Any number of steps. -/
inductive Derives (rs : List Rule) : List Symbol → List Symbol → Prop where
  | refl (xs : List Symbol) : Derives rs xs xs
  | tail {xs ys zs : List Symbol} : Derives rs xs ys → Produces rs ys zs → Derives rs xs zs

variable {rs : List Rule} {xs ys zs : List Symbol}

theorem Produces.derives (h : Produces rs xs ys) : Derives rs xs ys := .tail (.refl xs) h

theorem Derives.trans (h : Derives rs xs ys) (h' : Derives rs ys zs) : Derives rs xs zs := by
  induction h' with
  | refl => exact h
  | tail _ step ih => exact .tail ih step

/-- A step can take place between any symbols. -/
theorem Produces.context (h : Produces rs xs ys) (left right : List Symbol) :
    Produces rs (left ++ (xs ++ right)) (left ++ (ys ++ right)) := by
  cases h with
  | replace l r mem =>
    simpa only [List.append_assoc, List.cons_append] using
      Produces.replace (left ++ l) (r ++ right) mem

/-- A derivation can take place between any symbols. -/
theorem Derives.context (h : Derives rs xs ys) (left right : List Symbol) :
    Derives rs (left ++ (xs ++ right)) (left ++ (ys ++ right)) := by
  induction h with
  | refl => exact .refl _
  | tail _ step ih => exact .tail ih (step.context left right)

namespace Grammar

/-- Texts of terminals that are derived from the start symbol. -/
def IsSentence (g : Grammar) (w : List Symbol) : Prop :=
  (∀ t ∈ w, t ∈ g.terminals) ∧ ∃ s, g.start = some s ∧ Derives g.rules [s] w

/-- One step at the last name that can be replaced, by the production of a number. -/
inductive RightmostStep (g : Grammar) (number : Nat) : List Symbol → List Symbol → Prop where
  | replace (left : List Symbol) {p : Production} {right : List Symbol}
    (at_number : g.productions[number]? = some p) (terminals : ∀ t ∈ right, t ∈ g.terminals) :
    RightmostStep g number (left ++ p.name :: right) (left ++ (p.rhs ++ right))

/-- Rightmost steps by the productions of the given numbers, in this order. -/
inductive Rightmost (g : Grammar) : List Nat → List Symbol → List Symbol → Prop where
  | refl (xs : List Symbol) : Rightmost g [] xs xs
  | head {n : Nat} {ns : List Nat} {xs ys zs : List Symbol} :
    RightmostStep g n xs ys → Rightmost g ns ys zs → Rightmost g (n :: ns) xs zs

variable {g : Grammar}

theorem RightmostStep.produces {n : Nat} (h : RightmostStep g n xs ys) :
    Produces g.rules xs ys := by
  cases h with
  | @replace left p right at_number _ =>
    exact .replace left right (List.mem_map_of_mem (List.mem_of_getElem? at_number))

theorem Rightmost.derives {ns : List Nat} (h : Rightmost g ns xs ys) : Derives g.rules xs ys := by
  induction h with
  | refl => exact .refl _
  | head step _ ih => exact step.produces.derives.trans ih

end Grammar

end ShiftReduce
