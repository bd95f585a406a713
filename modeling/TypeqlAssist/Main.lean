import TypeqlAssist.CommandLine
import TypeqlAssist.Json.Printer

/-!
# The program

Reads the files that the arguments name, runs the command on them and prints its answer.
-/

namespace TypeqlAssist

/-- The error of a path, as far as it is told apart. -/
def pathErrorOf : IO.Error → PathError
  | .inappropriateType _ 21 _ => .isADirectory
  | .inappropriateType _ _ _ => .notADirectory
  | .invalidArgument _ _ _ => .nameTooLong
  | _ => .notFound

/-- The content of a file, or why there is none. -/
def contentOf (path : String) : IO (Except PathError String) := do
  try
    return .ok (← IO.FS.readFile path)
  catch e =>
    return .error (pathErrorOf e)

end TypeqlAssist

open TypeqlAssist

/-- Completes a file at a cursor. -/
def main (args : List String) : IO UInt32 := do
  let contents ← (CommandLine.filesNamed args).mapM fun path => do
    return (path, ← contentOf path)
  let read := fun path => (contents.lookup path).getD (.error .notFound)
  match CommandLine.run read args with
  | .usage =>
    IO.eprintln CommandLine.usageText
    return 2
  | .failure f =>
    IO.eprintln f.report
    return 1
  | .success output =>
    IO.println output.render
    return 0
