/-
Loops that end.

A loop passes through its body again and again, until a pass leaves it. Nothing bounds the passes;
that there are finitely many is what is to be shown. A function that runs a loop up to a given
number of passes computes what the loop computes once the number is large enough.

* `Pass` — what a pass through the body leads to;
* `Ends` — the loop is left after it went on some number of times;
* `IsDeterministic`, `Ends.unique` — a body that leads to one thing only, so that there is one run;
* `Ends.exists_leave` — what passes keep holds of the state that the loop is left from;
* `Terminates` — a loop that has no endless run, and where it ends;
* `Proceeds` — an invariant and a measure that decreases with each pass that goes on;
* `Proceeds.terminates` — they make a loop end, and a function with passes enough computes where it
  ends.
-/
namespace ShiftReduce

variable {σ τ : Type}

/-- What a pass through the body of a loop leads to: a state to go on from, or one to end in. -/
inductive Pass (σ : Type) where
  | again (state : σ)
  | leave (state : σ)

/-- The loop with the given body goes on a number of times and is left then. -/
inductive Ends (body : σ → Pass σ → Prop) : Nat → σ → σ → Prop where
  | leave {s t : σ} : body s (.leave t) → Ends body 0 s t
  | again {n : Nat} {s s' t : σ} : body s (.again s') → Ends body n s' t → Ends body (n + 1) s t

/-- A body that leads from each state to one thing at most. -/
def IsDeterministic (body : σ → Pass σ → Prop) : Prop :=
  ∀ s p p', body s p → body s p' → p = p'

/-- A loop that ends from a state, whatever way it takes, and in a given state when it has gone on
no more often than a bound says. -/
structure Terminates (body : σ → Pass σ → Prop) (bound : Nat) (s t : σ) : Prop where
  finite : Acc (fun s'' s' => body s' (.again s'')) s
  ends : ∃ n ≤ bound, Ends body n s t

variable {body : σ → Pass σ → Prop} {s t t' : σ} {n n' : Nat}

/-- There is one run. -/
theorem Ends.unique (hbody : IsDeterministic body) (h : Ends body n s t) (h' : Ends body n' s t') :
    n = n' ∧ t = t' := by
  induction h generalizing n' with
  | leave hleave =>
    cases h' with
    | leave hleave' => exact ⟨rfl, Pass.leave.inj (hbody _ _ _ hleave hleave')⟩
    | again hagain' _ => cases hbody _ _ _ hleave hagain'
  | again hagain _ ih =>
    cases h' with
    | leave hleave' => cases hbody _ _ _ hagain hleave'
    | again hagain' hrest =>
      obtain rfl := Pass.again.inj (hbody _ _ _ hagain hagain')
      obtain ⟨rfl, rfl⟩ := ih hrest
      exact ⟨rfl, rfl⟩

/-- Where the one run ends, there is no endless one. -/
theorem Ends.acc (hbody : IsDeterministic body) (h : Ends body n s t) :
    Acc (fun s'' s' => body s' (.again s'')) s := by
  induction h with
  | leave hleave =>
    refine ⟨_, fun s' hs' => ?_⟩
    cases hbody _ _ _ hleave hs'
  | again hagain _ ih =>
    refine ⟨_, fun s' hs' => ?_⟩
    obtain rfl := Pass.again.inj (hbody _ _ _ hagain hs')
    exact ih

/-- What every pass that goes on keeps holds of the state that the loop is left from. -/
theorem Ends.exists_leave {I : σ → Prop} (keeps : ∀ s s', I s → body s (.again s') → I s')
    (h : Ends body n s t) (start : I s) : ∃ s', I s' ∧ body s' (.leave t) := by
  induction h with
  | leave hleave => exact ⟨_, start, hleave⟩
  | again hagain _ ih => exact ih (keeps _ _ start hagain)

theorem Terminates.mono {bound bound' : Nat} (h : Terminates body bound s t)
    (hle : bound ≤ bound') : Terminates body bound' s t := by
  obtain ⟨hfinite, n, hn, hends⟩ := h
  exact ⟨hfinite, n, Nat.le_trans hn hle, hends⟩

/-- From a state with the invariant a pass leaves the loop, or goes on with a smaller measure. A
function that runs the loop up to a number of passes needs `last` of them to leave it. -/
def Proceeds (body : σ → Pass σ → Prop) (I : σ → Prop) (μ : σ → Nat) (run : Nat → σ → τ)
    (out : σ → τ) (last : Nat) : Prop :=
  ∀ s, I s → (∃ t, body s (.leave t) ∧ ∀ k, run (k + last) s = out t) ∨
    ∃ s', body s (.again s') ∧ I s' ∧ μ s' < μ s ∧ ∀ k, run (k + 1) s = run k s'

variable {I : σ → Prop} {μ : σ → Nat} {run : Nat → σ → τ} {out : σ → τ} {last : Nat}

theorem Proceeds.exists_ends (h : Proceeds body I μ run out last) {s : σ} (start : I s) :
    ∃ n ≤ μ s, ∃ t, Ends body n s t ∧ ∀ k, μ s + last ≤ k → run k s = out t := by
  induction hm : μ s using Nat.strongRecOn generalizing s with
  | _ m ih =>
    subst hm
    rcases h s start with ⟨t, hleave, hrun⟩ | ⟨s', hagain, hkept, hless, hrun⟩
    · refine ⟨0, Nat.zero_le _, t, .leave hleave, fun k hk => ?_⟩
      rw [← Nat.sub_add_cancel (show last ≤ k by omega)]
      exact hrun _
    · obtain ⟨n, hn, t, hends, hrest⟩ := ih (μ s') hless hkept rfl
      refine ⟨n + 1, by omega, t, .again hagain hends, fun k hk => ?_⟩
      obtain ⟨k, rfl⟩ : ∃ j, k = j + 1 := ⟨k - 1, by omega⟩
      rw [hrun, hrest k (by omega)]

/-- A loop that proceeds ends. A function that runs it computes where, if it has as many passes as
the measure says and those that it takes to leave. -/
theorem Proceeds.terminates (h : Proceeds body I μ run out last) (hbody : IsDeterministic body)
    {s : σ} (start : I s) :
    ∃ t, Terminates body (μ s) s t ∧ ∀ k, μ s + last ≤ k → run k s = out t := by
  obtain ⟨n, hn, t, hends, hrun⟩ := h.exists_ends start
  exact ⟨t, ⟨hends.acc hbody, n, hn, hends⟩, hrun⟩

end ShiftReduce
