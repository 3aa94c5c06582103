/-
The command line: files are read and lines are printed here, everything else is `Command.run`.
-/
import SemanticPlanner.Command.Run

open SemanticPlanner

/-- the text of a file, if it can be read -/
def readText (path : String) : IO (Option String) := do
  try
    return some (← IO.FS.readFile path)
  catch _ =>
    return none

def main (args : List String) : IO UInt32 := do
  let paths := ((Command.Arguments.read args).map Command.Arguments.paths).getD []
  let texts ← paths.mapM fun p => do return (p, ← readText p)
  match Command.run (fun p => (texts.lookup p).join) args with
  | .ok lines =>
    for l in lines do
      IO.println l
    return 0
  | .error e =>
    IO.eprintln e.message
    return e.code.toUInt32
