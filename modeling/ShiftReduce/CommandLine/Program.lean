/-
The program behind the command line.

* `Reply` — what a call of the program prints and how it ends;
* `answer` — the reply to a request;
* `program` — the reply to a list of arguments.

A call ends with status 0 if all went well and an input was accepted, with 1 if a file or a grammar
is at fault or an input was not accepted, and with 2 if the arguments are refused. A failure of
another kind ends the call without a status.
-/
import ShiftReduce.CommandLine.Arguments
import ShiftReduce.CommandLine.Report
import ShiftReduce.CommandLine.Usage
import ShiftReduce.Settings

namespace ShiftReduce.CommandLine

/-- What a call prints and how it ends. -/
structure Reply where
  /-- The status, or the failure that left none. -/
  outcome : Except Failure Nat
  out : String
  err : String

namespace Reply

/-- The reply that ends with a status. -/
def status (n : Nat) (out err : String) : Reply := ⟨.ok n, out, err⟩

/-- The reply after a failure: one that callers expect is a complaint, and another is left to
them. -/
def failed (f : Failure) (expected : Bool) (out err : String) : Reply :=
  if expected then ⟨.ok 1, out, err ++ complaint f.message⟩ else ⟨.error f, out, err⟩

end Reply

/-- Whether a failure to read or to compile is expected. -/
def expectedOfCompile : Failure → Bool
  | .fault f => f.kind.isOfGrammar
  | .file f => f.isOfSystem

/-- The trace over what the parser is to be run over, if it is to be run. A table with conflicts is
refused before the input is looked at. -/
def traceOf (limit : Nat) (c : Compiled) : Input → Except Fault (Option Trace)
  | .nothing => .ok none
  | .text s => some <$> c.simulate limit s
  | .noText => .error (if c.table.hasConflict then .conflicted else .noText)

/-- What a call prints and how it ends after a compilation; `err` is what was printed before. -/
def present (limit : Nat) (r : Request) (c : Compiled) (err : String) : Reply :=
  match report c with
  | .error fault => .failed (.fault fault) false "" err
  | .ok out =>
    match traceOf limit c r.input with
    | .error fault => .failed (.fault fault) fault.kind.isRefusal out err
    | .ok none => .status 0 out err
    | .ok (some trace) =>
      match traceReport trace with
      | .error fault => .failed (.fault fault) false out err
      | .ok steps => .status (if trace.accepted then 0 else 1) (out ++ steps) err

variable {m : Type → Type} [Monad m]

/-- The text of the grammar file; a dash stands for the standard input. -/
def readGrammar (files : FileAccess m) (input : m (Except FileFault String)) (path : String) :
    m (Except FileFault String) :=
  if path = "-" then input else files.read path

/-- The reply to a request. -/
def answer (limit : Nat) (files : FileAccess m) (input : m (Except FileFault String))
    (r : Request) : m Reply := do
  match ← readGrammar files input r.file with
  | .error fault => return .failed (.file fault) (expectedOfCompile (.file fault)) "" ""
  | .ok text =>
    let settings : Settings Unit := ⟨(), r.debugFile, some r.fullInitialState⟩
    let compilation ← settings.compile files text
    let err := Log.text compilation.entries
    match compilation.outcome with
    | .error failure => return .failed failure (expectedOfCompile failure) "" err
    | .ok c => return present limit r c err

/-- The reply to a list of arguments. -/
def program (limit : Nat) (files : FileAccess m) (input : m (Except FileFault String))
    (arguments : List String) : m Reply :=
  match Request.ofArguments arguments with
  | .error .help => return .status 0 help ""
  | .error (.refused refusal) => return .status 2 "" (usage ++ complaint refusal.message)
  | .ok r => answer limit files input r

end ShiftReduce.CommandLine
