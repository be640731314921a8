import TermForest.CommandLine.Run

/-!
# The program

Reads the files that a command line names, runs it, and reports what happened.
-/

namespace TermForest

/-- What a file holds, if it can be read as text. -/
def readIfPossible (path : String) : IO (Option String) := do
  try
    return some (← IO.FS.readFile path)
  catch _ =>
    return none

end TermForest

open TermForest

/-- Runs a command line; the exit code is 0 on success, 1 on failure, and 2 on wrong usage. -/
def main (words : List String) : IO UInt32 := do
  let paths ←
    match Request.parse words with
    | .ok r => pure r.files
    | .error .help => do
      IO.print Request.usage
      pure []
    | .error .usage => do
      IO.eprint Request.usage
      pure []
  let contents ← paths.mapM fun path => return (path, ← readIfPossible path)
  let outcome := Request.runWords (fun path => (contents.lookup path).join) words
  IO.print outcome.output
  match outcome.chain with
  | [] => pure ()
  | failure :: causes =>
    IO.eprintln ("Error: " ++ failure)
    unless causes.isEmpty do IO.eprintln "\nCaused by:"
    for cause in causes do IO.eprintln ("    " ++ cause)
  return outcome.exit.toUInt32
