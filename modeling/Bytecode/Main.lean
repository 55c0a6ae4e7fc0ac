import Bytecode.CommandLine

set_option autoImplicit false

/-!
# The program

Reads arguments, environment and file, and carries the answer out.
-/

namespace Bytecode.CommandLine

/-- The fault that a failure to open or read a file amounts to. -/
def readFaultOf : IO.Error → ReadFault
  | .noFileOrDirectory .. => .notFound
  | .inappropriateType .. => .isDirectory
  | failure => .other failure.toString

/-- The program that a file describes. -/
def loadFile (path : String) : IO (Except StartFault Code) := do
  try
    return loadBytes (← IO.FS.readBinFile path)
  catch failure =>
    return .error (.unreadable (readFaultOf failure))

/-- Writes an answer and gives its exit status. -/
def deliver (answer : Answer) : IO UInt32 := do
  let stdout ← IO.getStdout
  stdout.write (ByteArray.mk answer.stdout)
  stdout.flush
  (← IO.getStderr).putStr answer.stderr
  return answer.exitCode

end Bytecode.CommandLine

open Bytecode CommandLine in
/-- Carries out what the command line asks for. -/
def main (args : List String) : IO UInt32 := do
  match parse? args (← IO.getEnv limitVariable) with
  | none => deliver .usage
  | some .version => deliver .version
  | some .help => deliver .help
  | some (.run options) =>
    match options.answer Engine.ampleFuel (← loadFile options.listing) with
    | some answer => deliver answer
    | none => deliver (.failure "the program did not come to an end")
