import JavaMinus.CommandLine.FileTree

/-!
# The program

Gives a run its files and puts out what it prints.
-/

namespace JavaMinus.CommandLine

/-- The number of a failed operation on a file. Some operations give it negated. -/
def systemNumber? : IO.Error → Option Nat
  | .noFileOrDirectory _ code _ | .permissionDenied _ code _ | .inappropriateType _ code _
  | .invalidArgument _ code _ => some (min code (0 - code)).toNat
  | _ => none

/-- The wording of a failed operation on a file. -/
def reason (e : IO.Error) : String :=
  match (systemNumber? e).bind FileError.ofNumber? with
  | some cause => cause.message
  | none => toString e

/-- The text of a file, or the reason why it cannot be read. -/
def readFile : Read IO := fun path => do
  try
    return .ok (← IO.FS.readFile path)
  catch e => return .error (reason e)

/-- Put out what a run printed. -/
def Outcome.print (o : Outcome) : IO Unit := do
  (← IO.getStdout).putStr o.stdout
  (← IO.getStderr).putStr o.stderr

/-- Write the file of a run and print; a file that cannot be written is a failure of the run. -/
def Outcome.finish (o : Outcome) : IO Outcome := do
  match o.file with
  | none => return o
  | some (path, text) =>
    try
      IO.FS.writeFile path text
      return o
    catch e => return o.writeFailed path (reason e)

end JavaMinus.CommandLine

open JavaMinus CommandLine in
/-- The entry point of the program. -/
def main (arguments : List String) : IO UInt32 := do
  let o ← (← run readFile arguments).finish
  o.print
  return UInt32.ofNat o.code
