/-
The command line in the world: files of the system, the standard streams and the exit status.
-/
import ShiftReduce.CommandLine.Program

namespace ShiftReduce.CommandLine

/-- The text of bytes that were read. -/
def textOf (bytes : ByteArray) : Except FileFault String :=
  match Text.Utf8.decode bytes.toList with
  | .ok text => .ok text
  | .error fault => .error (.notText fault)

/-- The fault that the system reported for a path. -/
def faultOf (path : String) : IO.Error → FileFault
  | .noFileOrDirectory _ _ _ => .path .missing path
  | .inappropriateType _ _ _ => .path .isDirectory path
  | e => .other (toString e)

/-- Access to the files of the system. -/
def systemFiles : FileAccess IO where
  read path := do
    try return textOf (← IO.FS.readBinFile path)
    catch e => return .error (faultOf path e)
  write path text := do
    try
      IO.FS.writeFile path text
      return .ok ()
    catch e => return .error (faultOf path e)

/-- The text on the standard input. -/
def standardInput : IO (Except FileFault String) := do
  return textOf (← (← IO.getStdin).readBinToEnd)

end ShiftReduce.CommandLine

open ShiftReduce CommandLine in
/-- Runs the program and prints its reply. -/
def main (arguments : List String) : IO UInt32 := do
  let reply ← program stepLimit systemFiles standardInput arguments
  IO.print reply.out
  IO.eprint reply.err
  match reply.outcome with
  | .ok status => return status.toUInt32
  | .error failure => do
    IO.eprintln failure.message
    return 1
