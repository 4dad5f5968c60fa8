/-
How a call of the program ends.

Without listings, reading the grammar is all that a call does in the world; what it prints and how
it ends is told by the text that was read. It ends with status 0 or 1, unless the run over the input
is given up or comes to a state with no goto on a name, which no caller expects.

* `replyTo` — the reply to a request, by what was read;
* `program_eq` — this is what a call does;
* `outcome_eq` — how it ends, by what the text compiles to and what becomes of the input;
* `Ending`, `program_ends` — which calls end with which status;
* `program_leaves_no_status` — with every production in state 0 a call can end without one.
-/
import ShiftReduce.CommandLine.Program
import ShiftReduce.Proofs.CommandLine.Report
import ShiftReduce.Proofs.Compilation
import ShiftReduce.Proofs.Simulation.Faults

namespace ShiftReduce.CommandLine

/-- The reply to a request without listings, by what was read as the grammar's text. -/
def replyTo (limit : Nat) (r : Request) : Except FileFault String → Reply
  | .error fault => .failed (.file fault) (expectedOfCompile (.file fault)) "" ""
  | .ok text =>
    let (warnings, outcome) := compile r.fullInitialState text
    let err := Log.text (warnings.map Warning.entry)
    match outcome with
    | .error fault => .failed (.fault fault) (expectedOfCompile (.fault fault)) "" err
    | .ok c => present limit r c err

/-- How a request for a text ends. -/
def outcomeOf (limit : Nat) (r : Request) (text : String) : Except Failure Nat :=
  (replyTo limit r (.ok text)).outcome

variable {limit : Nat} {r : Request} {text s : String} {c : Compiled} {trace : Trace}
  {fault : Fault}

section Program

variable {m : Type → Type} [Monad m] [LawfulMonad m] {files : FileAccess m}
  {input : m (Except FileFault String)} {arguments : List String}

theorem answer_eq (hdebug : r.debugFile = none) :
    answer limit files input r = replyTo limit r <$> readGrammar files input r.file := by
  rw [answer, map_eq_pure_bind]
  refine bind_congr fun read => ?_
  cases read with
  | error fault => rfl
  | ok text =>
    have hname :
        (⟨(), r.debugFile, some r.fullInitialState⟩ : Settings Unit).listingName? = none := by
      rw [Settings.listingName?, hdebug]
      rfl
    dsimp only
    rw [Settings.compile_eq _ files text hname, pure_bind, replyTo]
    show _ = pure _
    have hfull : (⟨(), r.debugFile, some r.fullInitialState⟩ : Settings Unit).isFull =
        r.fullInitialState := rfl
    rw [hfull]
    obtain ⟨warnings, outcome⟩ := compile r.fullInitialState text
    cases outcome <;> rfl

/-- A call without listings reads the grammar and replies to what was read. -/
theorem program_eq (hr : Request.ofArguments arguments = .ok r) (hdebug : r.debugFile = none) :
    program limit files input arguments = replyTo limit r <$> readGrammar files input r.file := by
  rw [program, hr]
  exact answer_eq hdebug

end Program

/-! ### Outcomes -/

theorem outcome_noRules (h : (compile r.fullInitialState text).2 = .error .noRules) :
    outcomeOf limit r text = .ok 1 := by
  rw [outcomeOf, replyTo]
  dsimp only
  rw [h]
  rfl

/-- What a text compiles to is shown, so that the input decides. -/
theorem outcome_present (hc : c.IsOf r.fullInitialState text) (err : String) :
    (present limit r c err).outcome =
      match traceOf limit c r.input with
      | .error fault => if fault.kind.isRefusal then .ok 1 else .error (.fault fault)
      | .ok none => .ok 0
      | .ok (some trace) => .ok (if trace.accepted then 0 else 1) := by
  obtain ⟨out, hout⟩ := hc.exists_report
  rw [present, hout]
  dsimp only
  cases htrace : traceOf limit c r.input with
  | error fault =>
    dsimp only
    rw [Reply.failed]
    split <;> rfl
  | ok shown =>
    cases shown with
    | none => rfl
    | some trace =>
      obtain ⟨steps, hsteps⟩ := exists_traceReport trace
      dsimp only
      rw [hsteps]
      rfl

theorem outcome_compiled (hcompile : (compile r.fullInitialState text).2 = .ok c)
    (hc : c.IsOf r.fullInitialState text) :
    outcomeOf limit r text =
      match traceOf limit c r.input with
      | .error fault => if fault.kind.isRefusal then .ok 1 else .error (.fault fault)
      | .ok none => .ok 0
      | .ok (some trace) => .ok (if trace.accepted then 0 else 1) := by
  rw [outcomeOf, replyTo]
  dsimp only
  rw [hcompile]
  exact outcome_present hc _

/-! ### Endings -/

/-- How a call for a text ends: with status 0 or 1, or with a failure that no caller expects. -/
structure Ending (limit : Nat) (r : Request) (text : String) (outcome : Except Failure Nat) :
    Prop where
  /-- Status 0: the text compiles, and there is no input or it is accepted. -/
  zero_iff : outcome = .ok 0 ↔ ∃ c, (compile r.fullInitialState text).2 = .ok c ∧
    (r.input = .nothing ∨ ∃ s trace, r.input = .text s ∧ c.simulate limit s = .ok trace ∧
      trace.accepted = true)
  /-- Status 1: the text has no rules, or the input is refused or rejected. -/
  one_iff : outcome = .ok 1 ↔ (compile r.fullInitialState text).2 = .error .noRules ∨
    ∃ c s, (compile r.fullInitialState text).2 = .ok c ∧ r.input = .text s ∧
      (c.table.hasConflict = true ∨ (∃ token ∈ Text.wordsOf s, token ∉ c.grammar.terminals) ∨
        ∃ trace, c.simulate limit s = .ok trace ∧ trace.accepted = false)
  /-- No status: the run is given up, or there is no goto on a name, as can happen only with every
  production in state 0. -/
  failed_iff : ∀ failure, outcome = .error failure ↔
    ∃ c s fault, (compile r.fullInitialState text).2 = .ok c ∧ r.input = .text s ∧
      c.simulate limit s = .error fault ∧ failure = .fault fault ∧
      (fault = .unfinished limit ∨
        r.fullInitialState = true ∧ ∃ n name rule, fault = .noGoto n name rule)
  zero_or_one : ∀ status, outcome = .ok status → status = 0 ∨ status = 1

theorem ending_noRules (h : (compile r.fullInitialState text).2 = .error .noRules) :
    Ending limit r text (.ok 1) where
  zero_iff := by simp [h]
  one_iff := by simp [h]
  failed_iff := by simp [h]
  zero_or_one := by simp

theorem ending_nothing (hcompile : (compile r.fullInitialState text).2 = .ok c)
    (hinput : r.input = .nothing) : Ending limit r text (.ok 0) where
  zero_iff := by simp [hcompile, hinput]
  one_iff := by simp [hcompile, hinput]
  failed_iff := by simp [hcompile, hinput]
  zero_or_one := by simp

/-- A trace is there only if there is no conflict and every token is a terminal. -/
theorem ending_traced (hcompile : (compile r.fullInitialState text).2 = .ok c)
    (hinput : r.input = .text s) (htrace : c.simulate limit s = .ok trace) :
    Ending limit r text (.ok (if trace.accepted then 0 else 1)) := by
  obtain ⟨hfree, hknown, _⟩ := simulate_eq_ok htrace
  have hknown : ¬∃ token ∈ Text.wordsOf s, token ∉ c.grammar.terminals := by
    rintro ⟨token, hmem, hnone⟩
    exact hnone (hknown token hmem)
  cases haccepted : trace.accepted with
  | true =>
    refine ⟨?_, ?_, ?_, ?_⟩
    · simp [hcompile, hinput, htrace, haccepted]
    · simp [hcompile, hinput, htrace, haccepted, hfree, hknown]
    · simp [hcompile, hinput, htrace]
    · simp
  | false =>
    refine ⟨?_, ?_, ?_, ?_⟩
    · simp [hcompile, hinput, htrace, haccepted]
    · simp [hcompile, hinput, htrace, haccepted]
    · simp [hcompile, hinput, htrace]
    · simp

/-- A refusal has its reasons, and is neither of the faults that are left to the caller. -/
theorem ending_refused (hcompile : (compile r.fullInitialState text).2 = .ok c)
    (hc : c.IsOf r.fullInitialState text) (hinput : r.input = .text s)
    (hfault : c.simulate limit s = .error fault) (hrefusal : fault.kind.isRefusal = true) :
    Ending limit r text (.ok 1) := by
  obtain ⟨a, htable⟩ := hc.tabulated
  have hreasons := htable.refuses_iff.mp ⟨fault, hfault, hrefusal⟩
  refine ⟨?_, ?_, ?_, ?_⟩
  · simp [hcompile, hinput, hfault]
  · refine ⟨fun _ => .inr ⟨c, s, hcompile, hinput, ?_⟩, fun _ => rfl⟩
    exact hreasons.imp_right .inl
  · refine fun failure => ⟨nofun, ?_⟩
    rintro ⟨c', s', fault', hcompile', hinput', hfault', -, hunexpected⟩
    obtain rfl := Except.ok.inj (hcompile.symm.trans hcompile')
    obtain rfl := Input.text.inj (hinput.symm.trans hinput')
    obtain rfl := Except.error.inj (hfault.symm.trans hfault')
    rcases hunexpected with rfl | ⟨_, _, _, _, rfl⟩
    · cases hrefusal
    · cases hrefusal
  · simp

/-- A fault that is no refusal is that of a run which was given up, or which missed a goto. -/
theorem ending_failed (hcompile : (compile r.fullInitialState text).2 = .ok c)
    (hc : c.IsOf r.fullInitialState text) (hinput : r.input = .text s)
    (hfault : c.simulate limit s = .error fault) (hrefusal : ¬fault.kind.isRefusal = true) :
    Ending limit r text (.error (.fault fault)) := by
  obtain ⟨a, htable⟩ := hc.tabulated
  have hunrefused : ¬(c.table.hasConflict = true ∨
      ∃ token ∈ Text.wordsOf s, token ∉ c.grammar.terminals) := by
    intro hreasons
    obtain ⟨fault', hfault', hrefusal'⟩ := htable.refuses_iff.mpr hreasons
    obtain rfl := Except.error.inj (hfault.symm.trans hfault')
    exact hrefusal hrefusal'
  have hunexpected : fault = .unfinished limit ∨
      r.fullInitialState = true ∧ ∃ n name rule, fault = .noGoto n name rule := by
    rcases htable.fault_of_simulate hfault with ⟨_, rfl⟩ | ⟨_, _, _, rfl⟩ | hunexpected
    · exact absurd rfl hrefusal
    · exact absurd rfl hrefusal
    · exact hunexpected
  refine ⟨?_, ?_, ?_, ?_⟩
  · simp [hcompile, hinput, hfault]
  · refine ⟨nofun, ?_⟩
    rintro (hnone | ⟨c', s', hcompile', hinput', hreasons⟩)
    · cases hcompile.symm.trans hnone
    · obtain rfl := Except.ok.inj (hcompile.symm.trans hcompile')
      obtain rfl := Input.text.inj (hinput.symm.trans hinput')
      rcases hreasons with hconflict | hunknown | ⟨trace, htrace, _⟩
      · exact absurd (.inl hconflict) hunrefused
      · exact absurd (.inr hunknown) hunrefused
      · cases hfault.symm.trans htrace
  · refine fun failure => ⟨fun h => ?_, ?_⟩
    · exact ⟨c, s, fault, hcompile, hinput, hfault, (Except.error.inj h).symm, hunexpected⟩
    · rintro ⟨c', s', fault', hcompile', hinput', hfault', rfl, _⟩
      obtain rfl := Except.ok.inj (hcompile.symm.trans hcompile')
      obtain rfl := Input.text.inj (hinput.symm.trans hinput')
      obtain rfl := Except.error.inj (hfault.symm.trans hfault')
      rfl
  · simp

/-- Every request for a text ends in one of these ways. -/
theorem ending_outcomeOf (limit : Nat) (text : String) (hinput : r.input ≠ .noText) :
    Ending limit r text (outcomeOf limit r text) := by
  rcases compile_cases r.fullInitialState text with hnone | ⟨c, hcompile, hc⟩
  · rw [outcome_noRules hnone]
    exact ending_noRules hnone
  · rw [outcome_compiled hcompile hc]
    cases hvalue : r.input with
    | nothing => exact ending_nothing hcompile hvalue
    | text s =>
      rw [traceOf]
      cases hsimulate : c.simulate limit s with
      | ok trace => exact ending_traced hcompile hvalue hsimulate
      | error fault =>
        show Ending limit r text (if fault.kind.isRefusal then .ok 1 else .error (.fault fault))
        split
        · next hrefusal => exact ending_refused hcompile hc hvalue hsimulate hrefusal
        · next hrefusal => exact ending_failed hcompile hc hvalue hsimulate hrefusal
    | noText => exact absurd hvalue hinput

/-- A call without listings does nothing but read the grammar. With a text for the grammar it ends
with status 0 if the text compiles and the input, if there is one, is accepted; with status 1 if the
text has no rules or the input is refused or rejected; and without a status if the run over the
input is given up or, with every production in state 0, misses a goto. -/
theorem program_ends {m : Type → Type} [Monad m] [LawfulMonad m] (limit : Nat)
    (files : FileAccess m) (input : m (Except FileFault String)) {arguments : List String}
    (hr : Request.ofArguments arguments = .ok r) (hdebug : r.debugFile = none)
    (hinput : r.input ≠ .noText) :
    program limit files input arguments = replyTo limit r <$> readGrammar files input r.file ∧
      ∀ text, Ending limit r text (replyTo limit r (.ok text)).outcome :=
  ⟨program_eq hr hdebug, fun text => ending_outcomeOf limit text hinput⟩

/-- A directory with one grammar in it. -/
def chainDirectory : Directory := (∅ : Directory).insert "g" (.text "S -> a A A -> b")

/-- A call that ends with status 1, as its input is rejected. -/
theorem program_ends_rejected :
    Request.ofArguments ["g", "-i", "b"] = .ok ⟨"g", .text "b", false, none⟩ ∧
      program stepLimit Directory.access (pure (.ok "")) ["g", "-i", "b"] =
        replyTo stepLimit ⟨"g", .text "b", false, none⟩ <$>
          readGrammar Directory.access (pure (.ok "")) "g" ∧
      (∀ text, Ending stepLimit ⟨"g", .text "b", false, none⟩ text
        (replyTo stepLimit ⟨"g", .text "b", false, none⟩ (.ok text)).outcome) ∧
      ((readGrammar Directory.access (pure (.ok "")) "g").run chainDirectory).1 =
        .ok "S -> a A A -> b" ∧
      ((program stepLimit Directory.access (pure (.ok "")) ["g", "-i", "b"]).run
        chainDirectory).1.outcome = .ok 1 := by
  have hr : Request.ofArguments ["g", "-i", "b"] = .ok ⟨"g", .text "b", false, none⟩ := by
    decide +kernel
  obtain ⟨hprogram, hends⟩ :=
    program_ends stepLimit Directory.access (pure (.ok "")) hr rfl (by decide)
  have hstatus : ((program stepLimit Directory.access (pure (.ok "")) ["g", "-i", "b"]).run
      chainDirectory).1.outcome.toOption.map id = some 1 := by
    decide +kernel
  obtain ⟨status, houtcome, hone⟩ := exists_of_toOption hstatus
  exact ⟨hr, hprogram, hends, by decide +kernel, houtcome.trans (congrArg Except.ok hone)⟩

/-- With every production in state 0 the same call ends without a status. -/
theorem program_leaves_no_status :
    ((program stepLimit Directory.access (pure (.ok ""))
      ["g", "-i", "b", "--full-initial-state"]).run chainDirectory).1.outcome =
      .error (.fault (.noGoto 0 "A" 1)) := by
  have hfault : (match ((program stepLimit Directory.access (pure (.ok ""))
      ["g", "-i", "b", "--full-initial-state"]).run chainDirectory).1.outcome with
      | .error (.fault fault) => some fault
      | _ => none) = some (.noGoto 0 "A" 1) := by
    decide +kernel
  split at hfault
  · next fault hfailed => rw [hfailed, Option.some.inj hfault]
  · cases hfault

end ShiftReduce.CommandLine
