/-
Derivations read from the bottom up.

A derivation of a text of terminals is a row of trees. Read from left to right and from the leaves
to the roots, the productions at the inner nodes come in the order in which a parser reduces by
them; this is a rightmost derivation read backwards.

* `Grammar.Yields` — a row of symbols yields a text, with the numbers of the productions in this
  order;
* `Grammar.Yields.append`, `Grammar.Yields.split` — rows can be put together and taken apart;
* `Grammar.Yields.derives`, `Grammar.exists_yields_of_derives` — what is yielded is what is
  derived;
* `Grammar.Rightmost.yields`, `Grammar.Yields.rightmost` — a rightmost derivation, read backwards.
-/
import ShiftReduce.Grammar.Derivation
import ShiftReduce.Proofs.Grammar.Representation

namespace ShiftReduce.Grammar

/-- A row of symbols yields a text of terminals; the productions are numbered as they are met from
the bottom up and from left to right. -/
inductive Yields (g : Grammar) : List Symbol → List Nat → List Symbol → Prop where
  | nil : Yields g [] [] []
  | leaf {t : Symbol} {xs : List Symbol} {ns : List Nat} {w : List Symbol} :
    t ∈ g.terminals → Yields g xs ns w → Yields g (t :: xs) ns (t :: w)
  | node {n : Nat} {p : Production} {xs : List Symbol} {ns ms : List Nat} {u w : List Symbol} :
    g.productions[n]? = some p → Yields g p.rhs ns u → Yields g xs ms w →
      Yields g (p.name :: xs) (ns ++ n :: ms) (u ++ w)

variable {g : Grammar} {xs ys : List Symbol} {ns ms : List Nat} {u w : List Symbol}

namespace Yields

theorem append (h : Yields g xs ns u) (h' : Yields g ys ms w) :
    Yields g (xs ++ ys) (ns ++ ms) (u ++ w) := by
  induction h with
  | nil => exact h'
  | leaf ht _ ih => exact .leaf ht ih
  | node hp hrhs _ _ ih =>
    rw [List.append_assoc, List.append_assoc]
    exact .node hp hrhs ih

theorem split (h : Yields g (xs ++ ys) ns w) :
    ∃ ns₁ ns₂ w₁ w₂, ns = ns₁ ++ ns₂ ∧ w = w₁ ++ w₂ ∧
      Yields g xs ns₁ w₁ ∧ Yields g ys ns₂ w₂ := by
  induction xs generalizing ns w with
  | nil => exact ⟨[], ns, [], w, rfl, rfl, .nil, h⟩
  | cons x xs ih =>
    cases h with
    | leaf ht h =>
      obtain ⟨ns₁, ns₂, w₁, w₂, rfl, rfl, h₁, h₂⟩ := ih h
      exact ⟨ns₁, ns₂, x :: w₁, w₂, rfl, rfl, .leaf ht h₁, h₂⟩
    | @node n p _ ks _ v _ hp hrhs h =>
      obtain ⟨ns₁, ns₂, w₁, w₂, rfl, rfl, h₁, h₂⟩ := ih h
      refine ⟨ks ++ n :: ns₁, ns₂, v ++ w₁, w₂, ?_, ?_, .node hp hrhs h₁, h₂⟩
      · rw [List.append_assoc, List.cons_append]
      · rw [List.append_assoc]

theorem mem_terminals (h : Yields g xs ns w) : ∀ t ∈ w, t ∈ g.terminals := by
  induction h with
  | nil =>
    intro t ht
    cases ht
  | leaf ht _ ih =>
    intro s hs
    rcases List.mem_cons.mp hs with rfl | hs
    · exact ht
    · exact ih s hs
  | node _ _ _ ihu ihw =>
    intro t ht
    rcases List.mem_append.mp ht with ht | ht
    · exact ihu t ht
    · exact ihw t ht

theorem of_mem_terminals (h : ∀ t ∈ w, t ∈ g.terminals) : Yields g w [] w := by
  induction w with
  | nil => exact .nil
  | cons t w ih =>
    exact .leaf (h t (List.mem_cons_self ..)) (ih fun s hs => h s (List.mem_cons_of_mem t hs))

/-- Terminals yield only themselves, since they name no production. -/
theorem eq_of_mem_terminals (hg : g.Consistent) (hxs : ∀ t ∈ xs, t ∈ g.terminals)
    (h : Yields g xs ns w) : ns = [] ∧ w = xs := by
  induction h with
  | nil => exact ⟨rfl, rfl⟩
  | leaf _ _ ih =>
    obtain ⟨rfl, rfl⟩ := ih fun s hs => hxs s (List.mem_cons_of_mem _ hs)
    exact ⟨rfl, rfl⟩
  | @node n p _ _ _ _ _ hp _ _ _ _ =>
    have hname := hg.name_mem_nonterminals (List.mem_of_getElem? hp)
    exact absurd hname (hg.not_mem_nonterminals (hxs p.name (List.mem_cons_self ..)))

theorem derives (h : Yields g xs ns w) : Derives g.rules xs w := by
  induction h with
  | nil => exact .refl []
  | leaf _ _ ih => simpa using ih.context [_] []
  | @node n p ys _ _ u v hp _ _ ihu ihv =>
    have hr : p.toRule ∈ g.rules := List.mem_map_of_mem (List.mem_of_getElem? hp)
    have hstep : Derives g.rules (p.name :: ys) (p.rhs ++ ys) :=
      (Produces.replace [] ys hr).derives
    have hleft : Derives g.rules (p.rhs ++ ys) (u ++ ys) := by simpa using ihu.context [] ys
    have hright : Derives g.rules (u ++ ys) (u ++ v) := by simpa using ihv.context u []
    exact (hstep.trans hleft).trans hright

end Yields

/-- What a row yields after a step, it yields before it, with one more production. -/
theorem exists_yields_of_produces (h : Produces g.rules xs ys) (hy : Yields g ys ns w) :
    ∃ ms, Yields g xs ms w := by
  cases h with
  | @replace left right r mem =>
    obtain ⟨ns₁, ns₂, w₁, w₂, rfl, rfl, hleft, h⟩ := hy.split
    obtain ⟨ns₂, ns₃, w₂, w₃, rfl, rfl, hrhs, hright⟩ := h.split
    obtain ⟨p, hp, rfl⟩ := List.mem_map.mp mem
    obtain ⟨n, hn⟩ := List.getElem?_of_mem hp
    exact ⟨_, hleft.append (.node hn hrhs hright)⟩

theorem exists_yields_of_yields (h : Derives g.rules xs ys) (hy : Yields g ys ns w) :
    ∃ ms, Yields g xs ms w := by
  induction h generalizing ns with
  | refl => exact ⟨ns, hy⟩
  | tail _ step ih =>
    obtain ⟨ms, hms⟩ := exists_yields_of_produces step hy
    exact ih hms

theorem exists_yields_of_derives (h : Derives g.rules xs w) (hw : ∀ t ∈ w, t ∈ g.terminals) :
    ∃ ns, Yields g xs ns w := exists_yields_of_yields h (.of_mem_terminals hw)

/-- Sentences are what the start symbol yields. -/
theorem isSentence_iff : g.IsSentence w ↔ ∃ s ns, g.start = some s ∧ Yields g [s] ns w := by
  constructor
  · rintro ⟨hw, s, hs, h⟩
    obtain ⟨ns, hns⟩ := exists_yields_of_derives h hw
    exact ⟨s, ns, hs, hns⟩
  · rintro ⟨s, ns, hs, h⟩
    exact ⟨h.mem_terminals, s, hs, h.derives⟩

/-! ### Rightmost derivations -/

theorem RightmostStep.context_left {n : Nat} (h : RightmostStep g n xs ys) (left : List Symbol) :
    RightmostStep g n (left ++ xs) (left ++ ys) := by
  cases h with
  | replace l hp hright =>
    rw [← List.append_assoc, ← List.append_assoc]
    exact .replace (left ++ l) hp hright

/-- A rightmost derivation can take place behind any symbols. -/
theorem Rightmost.context_left (h : Rightmost g ns xs ys) (left : List Symbol) :
    Rightmost g ns (left ++ xs) (left ++ ys) := by
  induction h with
  | refl => exact .refl _
  | head step _ ih => exact .head (step.context_left left) ih

theorem Rightmost.trans {zs : List Symbol} (h : Rightmost g ns xs ys) (h' : Rightmost g ms ys zs) :
    Rightmost g (ns ++ ms) xs zs := by
  induction h with
  | refl => exact h'
  | head step _ ih => exact .head step (ih h')

/-- What a row yields, it derives from right to left, whatever terminals stand behind it. -/
theorem Yields.rightmost (h : Yields g xs ns u) {rest : List Symbol}
    (hrest : ∀ t ∈ rest, t ∈ g.terminals) : Rightmost g ns.reverse (xs ++ rest) (u ++ rest) := by
  induction h generalizing rest with
  | nil => exact .refl rest
  | leaf _ _ ih => exact (ih hrest).context_left [_]
  | @node n p xs ns ms u w hp hrhs hxs ihu ihw =>
    -- First the names behind the node are replaced, then the node, and then those below it.
    have hbehind : Rightmost g ms.reverse (p.name :: (xs ++ rest)) (p.name :: (w ++ rest)) :=
      (ihw hrest).context_left [p.name]
    have hterminals : ∀ t ∈ w ++ rest, t ∈ g.terminals := by
      intro t ht
      rcases List.mem_append.mp ht with ht | ht
      · exact hxs.mem_terminals t ht
      · exact hrest t ht
    have hnode : RightmostStep g n (p.name :: (w ++ rest)) (p.rhs ++ (w ++ rest)) :=
      .replace [] hp hterminals
    have hall := hbehind.trans (.head hnode (ihu hterminals))
    rw [List.reverse_append, List.reverse_cons, List.append_assoc, List.append_assoc]
    exact hall

/-- A rightmost derivation, read backwards. -/
theorem Rightmost.yields (hg : g.Consistent) (h : Rightmost g ns xs w)
    (hw : ∀ t ∈ w, t ∈ g.terminals) : Yields g xs ns.reverse w := by
  induction h with
  | refl => exact .of_mem_terminals hw
  | head step _ ih =>
    cases step with
    | @replace left p right hp hright =>
      -- The symbols behind the name are terminals, so no production is met after its own.
      obtain ⟨ns₁, ns₂, w₁, w₂, hns, rfl, hleft, h⟩ := (ih hw).split
      obtain ⟨ns₂, ns₃, w₂, w₃, rfl, rfl, hrhs, hend⟩ := h.split
      obtain ⟨rfl, rfl⟩ := hend.eq_of_mem_terminals hg hright
      have hnode := hleft.append (.node hp hrhs hend)
      rw [List.reverse_cons, hns]
      simpa using hnode

end ShiftReduce.Grammar
