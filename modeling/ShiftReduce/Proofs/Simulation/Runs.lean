/-
Runs as a relation between configurations.

Each configuration has one successor at most, and it depends on nothing but the stack and the next
symbol of the input.

* `Takes`, `Runs` — one move, and a list of moves, from a configuration to another;
* `Runs.exists_rest` — of two runs from one configuration one goes on where the other ends;
* `Runs.exists_read`, `Runs.of_same_start` — a run on another input that agrees up to the symbol
  that comes next;
* `run_cases` — `run` follows the relation, until no move is left or the steps are used up;
* `exists_faultsBy_of_run` — a fault of `run` is that of a configuration that is reached;
* `runs_of_run`, `exists_last_of_run` — its steps are those that are reached, each after the moves
  of the others before it, and from the last one no move leads on.
-/
import ShiftReduce.Simulation.Configuration
import ShiftReduce.Proofs.Outcome

namespace ShiftReduce

variable {g : Grammar} {t : Table} {c c' c₁ c₂ : Configuration} {move move' : Move}
  {moves moves' : List Move}

/-- A configuration has a move and a configuration after it. -/
def Takes (g : Grammar) (t : Table) (c : Configuration) (move : Move) (c' : Configuration) : Prop :=
  c.move g t = .ok move ∧ c.after t move = .ok (some c')

/-- Configurations from which no move leads on. -/
def Halts (g : Grammar) (t : Table) (c : Configuration) : Prop := ∀ move c', ¬Takes g t c move c'

/-- One move after another. -/
inductive Runs (g : Grammar) (t : Table) : List Move → Configuration → Configuration → Prop
  | refl (c : Configuration) : Runs g t [] c c
  | step {move : Move} {moves : List Move} {c c₁ c₂ : Configuration} : Takes g t c move c₁ →
      Runs g t moves c₁ c₂ → Runs g t (move :: moves) c c₂

/-- The number of the production of a reduction. -/
def Move.reduction? : Move → Option Nat
  | reduce rule _ => some rule
  | _ => none

/-- The numbers of the productions of all reductions, in order. -/
def reductionsOf (moves : List Move) : List Nat := moves.filterMap Move.reduction?

theorem reductionsOf_append (moves moves' : List Move) :
    reductionsOf (moves ++ moves') = reductionsOf moves ++ reductionsOf moves' :=
  List.filterMap_append

namespace Runs

theorem trans (h : Runs g t moves c c₁) (h' : Runs g t moves' c₁ c₂) :
    Runs g t (moves ++ moves') c c₂ := by
  induction h with
  | refl => exact h'
  | step ht _ ih => exact .step ht (ih h')

end Runs

/-! ### Determinism -/

theorem Takes.unique (h : Takes g t c move c₁) (h' : Takes g t c move' c₂) :
    move = move' ∧ c₁ = c₂ := by
  obtain rfl := Except.ok.inj (h.1.symm.trans h'.1)
  exact ⟨rfl, Option.some.inj (Except.ok.inj (h.2.symm.trans h'.2))⟩

/-- Of two runs from one configuration the longer one goes on where the shorter one ends. -/
theorem Runs.exists_rest (h : Runs g t moves c c₁) (h' : Runs g t moves' c c₂)
    (hle : moves.length ≤ moves'.length) :
    ∃ rest, moves' = moves ++ rest ∧ Runs g t rest c₁ c₂ := by
  induction h generalizing moves' with
  | refl => exact ⟨moves', rfl, h'⟩
  | step ht _ ih =>
    cases h' with
    | refl => exact absurd hle (Nat.not_succ_le_zero _)
    | step ht' h' =>
      obtain ⟨rfl, rfl⟩ := ht.unique ht'
      obtain ⟨rest, rfl, hrest⟩ := ih h' (Nat.le_of_succ_le_succ hle)
      exact ⟨rest, rfl, hrest⟩

theorem Runs.length_le (h : Runs g t moves c c₁) (hhalts : Halts g t c₁)
    (h' : Runs g t moves' c c₂) : moves'.length ≤ moves.length := by
  by_contra hlt
  obtain ⟨rest, rfl, hrest⟩ := h.exists_rest h' (by omega)
  cases hrest with
  | refl =>
    rw [List.append_nil] at hlt
    omega
  | step ht _ => exact hhalts _ _ ht

theorem Runs.unique (h : Runs g t moves c c₁) (hhalts : Halts g t c₁) (h' : Runs g t moves' c c₂)
    (hhalts' : Halts g t c₂) : moves = moves' ∧ c₁ = c₂ := by
  obtain ⟨rest, rfl, hrest⟩ := h.exists_rest h' (h'.length_le hhalts' h)
  cases hrest with
  | refl => exact ⟨(List.append_nil moves).symm, rfl⟩
  | step ht _ => exact absurd ht (hhalts _ _)

theorem halts_of_after (hmove : c.move g t = .ok move) (hafter : c.after t move = .ok none) :
    Halts g t c := by
  rintro move' c' ⟨hmove', hafter'⟩
  obtain rfl := Except.ok.inj (hmove.symm.trans hmove')
  rw [hafter] at hafter'
  cases hafter'

/-- Nothing comes after acceptance and rejection, but after every other move. -/
theorem eq_accept_or_reject_of_after (h : c.after t move = .ok none) :
    move = .accept ∨ move = .reject := by
  cases move with
  | shift state =>
    obtain ⟨_, _, hsome⟩ := map_eq_ok_iff.mp h
    cases hsome
  | reduce rule r =>
    obtain ⟨_, _, hsome⟩ := map_eq_ok_iff.mp h
    cases hsome
  | accept => exact .inl rfl
  | reject => exact .inr rfl

/-! ### The input -/

/-- A move is found by the stack and the next symbol. -/
theorem move_congr {stack : List (Symbol × Nat)} {input input' : List Symbol}
    (h : input.head? = input'.head?) :
    Configuration.move g t ⟨stack, input⟩ = Configuration.move g t ⟨stack, input'⟩ := by
  cases input with
  | nil =>
    obtain rfl : input' = [] := List.head?_eq_none_iff.mp h.symm
    rfl
  | cons s rest =>
    obtain ⟨rest', rfl⟩ := List.head?_eq_some_iff.mp h.symm
    rfl

/-- A reduction leaves the input as it is. -/
theorem reduce_eq_ok {rule : Nat} {r : Rule} (h : c.reduce t rule r = .ok c') :
    c'.input = c.input ∧ ∀ input, Configuration.reduce t ⟨c.stack, input⟩ rule r =
      .ok ⟨c'.stack, input⟩ := by
  unfold Configuration.reduce at h ⊢
  split at h
  · cases h
  · next hlength =>
    obtain ⟨actions, hactions, h⟩ := bind_eq_ok_iff.mp h
    dsimp only at hactions ⊢
    split at h
    · next state =>
      obtain rfl := Except.ok.inj h
      refine ⟨rfl, fun input => ?_⟩
      rw [if_neg hlength, hactions]
      rfl
    · cases h

/-- What a run has read of the input, and the same run on every input that agrees in that and in
the next symbol. -/
theorem Runs.exists_read (h : Runs g t moves c c') :
    ∃ read, c.input = read ++ c'.input ∧ ∀ input, input.head? = c'.input.head? →
      Runs g t moves ⟨c.stack, read ++ input⟩ ⟨c'.stack, input⟩ := by
  induction h with
  | refl c => exact ⟨[], rfl, fun input _ => .refl _⟩
  | @step move moves c c₁ c₂ ht _ ih =>
    obtain ⟨read, hread, hruns⟩ := ih
    obtain ⟨hmove, hafter⟩ := ht
    cases move with
    | shift state =>
      obtain ⟨c₁', hshift, hsome⟩ := map_eq_ok_iff.mp hafter
      obtain rfl := Option.some.inj hsome
      cases hinput : c.input with
      | nil =>
        rw [Configuration.shift, hinput] at hshift
        cases hshift
      | cons s rest =>
        rw [Configuration.shift, hinput] at hshift
        obtain rfl := Except.ok.inj hshift
        refine ⟨s :: read, congrArg (s :: ·) hread, fun input hhead => ?_⟩
        -- The symbol that was read is the next one on the other input too.
        refine .step ⟨?_, rfl⟩ (hruns input hhead)
        rw [← hmove]
        exact move_congr (by rw [hinput]; rfl)
    | reduce rule r =>
      obtain ⟨c₁', hreduce, hsome⟩ := map_eq_ok_iff.mp hafter
      obtain rfl := Option.some.inj hsome
      obtain ⟨hsame, hany⟩ := reduce_eq_ok hreduce
      refine ⟨read, hsame ▸ hread, fun input hhead => ?_⟩
      refine .step ⟨?_, ?_⟩ (hruns input hhead)
      · rw [← hmove]
        refine move_congr ?_
        rw [← hsame, hread, List.head?_append, List.head?_append, hhead]
      · exact map_eq_ok_iff.mpr ⟨_, hany (read ++ input), rfl⟩
    | accept => cases hafter
    | reject => cases hafter

/-- What is done up to a place of a text is done on every text that agrees with it up to the next
symbol. -/
theorem Runs.of_same_start {u v v' : List Symbol} (h : Runs g t moves (startOn (u ++ v)) c)
    (hinput : c.input = v ++ [Symbol.endMark])
    (hhead : (v' ++ [Symbol.endMark]).head? = c.input.head?) :
    Runs g t moves (startOn (u ++ v')) ⟨c.stack, v' ++ [Symbol.endMark]⟩ := by
  obtain ⟨read, hread, hany⟩ := h.exists_read
  have hread : u ++ v ++ [Symbol.endMark] = read ++ c.input := hread
  rw [hinput, List.append_assoc] at hread
  obtain rfl := List.append_cancel_right hread
  have hruns := hany (v' ++ [Symbol.endMark]) hhead
  rwa [← List.append_assoc] at hruns

/-! ### The function -/

/-- Configurations in which the machine stops with a fault. -/
def Faults (g : Grammar) (t : Table) (c : Configuration) : Prop :=
  (∃ fault, c.move g t = .error fault) ∨
    ∃ move fault, c.move g t = .ok move ∧ c.after t move = .error fault

theorem not_faults_of_after {next : Option Configuration} (hmove : c.move g t = .ok move)
    (hafter : c.after t move = .ok next) : ¬Faults g t c := by
  rintro (⟨fault, hfault⟩ | ⟨move', fault, hmove', hfault⟩)
  · rw [hmove] at hfault
    cases hfault
  · obtain rfl := Except.ok.inj (hmove.symm.trans hmove')
    rw [hafter] at hfault
    cases hfault

theorem run_of_takes (h : Takes g t c move c₁) (limit : Nat) :
    run g t (limit + 1) c = (fun steps => steps.map (⟨c, move⟩ :: ·)) <$> run g t limit c₁ := by
  rw [run, h.1]
  show (c.after t move >>= _) = _
  rw [h.2]
  rfl

theorem run_of_after (hmove : c.move g t = .ok move) (hafter : c.after t move = .ok none)
    (limit : Nat) : run g t (limit + 1) c = .ok (some [⟨c, move⟩]) := by
  rw [run, hmove]
  show (c.after t move >>= _) = _
  rw [hafter]
  rfl

/-- Configurations in which the machine stops with the given fault. -/
def FaultsBy (g : Grammar) (t : Table) (c : Configuration) (fault : Fault) : Prop :=
  c.move g t = .error fault ∨ ∃ move, c.move g t = .ok move ∧ c.after t move = .error fault

theorem Faults.exists_faultsBy (h : Faults g t c) : ∃ fault, FaultsBy g t c fault := by
  rcases h with ⟨fault, hmove⟩ | ⟨move, fault, hmove, hafter⟩
  · exact ⟨fault, .inl hmove⟩
  · exact ⟨fault, .inr ⟨move, hmove, hafter⟩⟩

theorem run_of_faultsBy {fault : Fault} (h : FaultsBy g t c fault) (limit : Nat) :
    run g t (limit + 1) c = .error fault := by
  rw [run]
  rcases h with hmove | ⟨move, hmove, hafter⟩
  · rw [hmove]
    rfl
  · rw [hmove]
    show (c.after t move >>= _) = _
    rw [hafter]
    rfl

theorem run_of_faults (h : Faults g t c) (limit : Nat) :
    ∃ fault, run g t (limit + 1) c = .error fault := by
  obtain ⟨fault, hfault⟩ := h.exists_faultsBy
  exact ⟨fault, run_of_faultsBy hfault limit⟩

/-- A configuration has a successor, or the last move is made in it, or there is a fault. -/
theorem takes_or_ends_or_faults (g : Grammar) (t : Table) (c : Configuration) :
    (∃ move c', Takes g t c move c') ∨
      (∃ move, c.move g t = .ok move ∧ c.after t move = .ok none) ∨ Faults g t c := by
  cases hmove : c.move g t with
  | error fault => exact .inr (.inr (.inl ⟨fault, hmove⟩))
  | ok move =>
    cases hafter : c.after t move with
    | error fault => exact .inr (.inr (.inr ⟨move, fault, hmove, hafter⟩))
    | ok next =>
      cases next with
      | none => exact .inr (.inl ⟨move, rfl, hafter⟩)
      | some c' => exact .inl ⟨move, c', hmove, hafter⟩

/-- The steps are used up, or a last move is made, or there is a fault. -/
theorem run_cases (g : Grammar) (t : Table) (limit : Nat) (c : Configuration) :
    ∃ moves c', Runs g t moves c c' ∧
      ((run g t limit c = .ok none ∧ moves.length = limit) ∨
        (∃ move steps, run g t limit c = .ok (some steps) ∧ c'.move g t = .ok move ∧
          c'.after t move = .ok none ∧ steps.getLast? = some ⟨c', move⟩) ∨
        ∃ fault, run g t limit c = .error fault ∧ Faults g t c') := by
  induction limit generalizing c with
  | zero => exact ⟨[], c, .refl c, .inl ⟨rfl, rfl⟩⟩
  | succ limit ih =>
    rcases takes_or_ends_or_faults g t c with ⟨move, c₁, ht⟩ | ⟨move, hmove, hafter⟩ | hfaults
    · obtain ⟨moves, c', hruns, hcases⟩ := ih c₁
      refine ⟨move :: moves, c', .step ht hruns, ?_⟩
      rw [run_of_takes ht]
      rcases hcases with ⟨hnone, hlength⟩ | ⟨last, steps, hsome, hlast, hend, hget⟩ |
        ⟨fault, herror, hfaults⟩
      · rw [hnone]
        exact .inl ⟨rfl, congrArg (· + 1) hlength⟩
      · rw [hsome]
        refine .inr (.inl ⟨last, ⟨c, move⟩ :: steps, rfl, hlast, hend, ?_⟩)
        rw [List.getLast?_cons, hget]
        rfl
      · rw [herror]
        exact .inr (.inr ⟨fault, rfl, hfaults⟩)
    · exact ⟨[], c, .refl c, .inr (.inl ⟨move, _, run_of_after hmove hafter limit, hmove, hafter,
        rfl⟩)⟩
    · obtain ⟨fault, hfault⟩ := run_of_faults hfaults limit
      exact ⟨[], c, .refl c, .inr (.inr ⟨fault, hfault, hfaults⟩)⟩

/-- A fault of a run is the fault of a configuration that is reached. -/
theorem exists_faultsBy_of_run {limit : Nat} {fault : Fault} (h : run g t limit c = .error fault) :
    ∃ moves c', Runs g t moves c c' ∧ FaultsBy g t c' fault := by
  induction limit generalizing c with
  | zero => cases h
  | succ limit ih =>
    rcases takes_or_ends_or_faults g t c with ⟨move, c₁, ht⟩ | ⟨move, hmove, hafter⟩ | hfaults
    · rw [run_of_takes ht] at h
      cases hrest : run g t limit c₁ with
      | ok outcome =>
        rw [hrest] at h
        cases h
      | error fault' =>
        rw [hrest] at h
        obtain rfl := Except.error.inj h
        obtain ⟨moves, c', hruns, hfault⟩ := ih hrest
        exact ⟨move :: moves, c', .step ht hruns, hfault⟩
    · rw [run_of_after hmove hafter] at h
      cases h
    · obtain ⟨fault', hfault⟩ := hfaults.exists_faultsBy
      obtain rfl := Except.error.inj ((run_of_faultsBy hfault limit).symm.trans h)
      exact ⟨[], c, .refl c, hfault⟩

/-- Each step of a run that ends is reached by the moves of the steps before it, and shows the move
that is made there. -/
theorem runs_of_run {limit n : Nat} {steps : List Step} {step : Step}
    (h : run g t limit c = .ok (some steps)) (hn : steps[n]? = some step) :
    Runs g t ((steps.take n).map Step.move) c step.configuration ∧
      step.configuration.move g t = .ok step.move := by
  induction limit generalizing c steps n with
  | zero => cases h
  | succ limit ih =>
    rcases takes_or_ends_or_faults g t c with ⟨move, c₁, ht⟩ | ⟨move, hmove, hafter⟩ | hfaults
    · rw [run_of_takes ht] at h
      obtain ⟨outcome, hrun, hsome⟩ := map_eq_ok_iff.mp h
      obtain ⟨rest, rfl, rfl⟩ := Option.map_eq_some_iff.mp hsome
      cases n with
      | zero =>
        obtain rfl := Option.some.inj hn
        exact ⟨.refl c, ht.1⟩
      | succ n =>
        obtain ⟨hruns, hmove⟩ := ih hrun hn
        exact ⟨.step ht hruns, hmove⟩
    · rw [run_of_after hmove hafter] at h
      obtain rfl := Option.some.inj (Except.ok.inj h)
      cases n with
      | zero =>
        obtain rfl := Option.some.inj hn
        exact ⟨.refl c, hmove⟩
      | succ n => cases hn
    · obtain ⟨fault, hfault⟩ := run_of_faults hfaults limit
      cases h.symm.trans hfault

/-- A run that ends has a last step, whose move leads nowhere. -/
theorem exists_last_of_run {limit : Nat} {steps : List Step}
    (h : run g t limit c = .ok (some steps)) :
    ∃ before last, steps = before ++ [last] ∧
      Runs g t (before.map Step.move) c last.configuration ∧
      last.configuration.move g t = .ok last.move ∧
      last.configuration.after t last.move = .ok none := by
  obtain ⟨_, c', _, hcases⟩ := run_cases g t limit c
  rcases hcases with ⟨hnone, _⟩ | ⟨move, steps', hsome, hmove, hafter, hlast⟩ | ⟨fault, herror, _⟩
  · cases h.symm.trans hnone
  · obtain rfl := Option.some.inj (Except.ok.inj (h.symm.trans hsome))
    obtain ⟨before, rfl⟩ := List.getLast?_eq_some_iff.mp hlast
    have hn : (before ++ [⟨c', move⟩])[before.length]? = some ⟨c', move⟩ := by simp
    obtain ⟨hruns, _⟩ := runs_of_run h hn
    rw [List.take_left] at hruns
    exact ⟨before, ⟨c', move⟩, rfl, hruns, hmove, hafter⟩
  · cases h.symm.trans herror

/-- With steps enough a run gets to the last move that there is, by the same steps always. -/
theorem run_of_runs (h : Runs g t moves c c') (hmove : c'.move g t = .ok move)
    (hafter : c'.after t move = .ok none) :
    ∃ steps, steps.getLast? = some ⟨c', move⟩ ∧
      ∀ limit, moves.length < limit → run g t limit c = .ok (some steps) := by
  induction h with
  | refl c =>
    refine ⟨[⟨c, move⟩], rfl, fun limit hlimit => ?_⟩
    obtain ⟨limit, rfl⟩ := Nat.exists_eq_succ_of_ne_zero (Nat.ne_of_gt hlimit)
    exact run_of_after hmove hafter limit
  | @step first moves c _ _ ht _ ih =>
    obtain ⟨steps, hlast, hrun⟩ := ih hmove hafter
    refine ⟨⟨c, first⟩ :: steps, ?_, fun limit hlimit => ?_⟩
    · rw [List.getLast?_cons, hlast]
      rfl
    · rw [List.length_cons] at hlimit
      obtain ⟨limit, rfl⟩ := Nat.exists_eq_succ_of_ne_zero (show limit ≠ 0 by omega)
      rw [run_of_takes ht, hrun limit (by omega)]
      rfl

end ShiftReduce
