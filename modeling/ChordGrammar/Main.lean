import ChordGrammar.Command.Run

/-!
# The command

Reads the settings file that the arguments name, runs, and shows the outcome: lines of output on
the one stream and log records on the other. The environment variable `CHORD_GRAMMAR_LOG` says how
much is logged.
-/
namespace ChordGrammar.Command

/-- What stands at a path right now. -/
def fileState (path : String) : IO FileState := do
  try
    return .file (← IO.FS.readBinFile path)
  catch
    | .noFileOrDirectory .. => return .missing
    | .inappropriateType .. => return .directory
    | e => return .failing (toString e)

/-- A seed nobody chose. -/
def freshSeed : IO UInt64 := do
  let bytes ← IO.getRandomBytes 8
  return bytes.toList.foldl (fun n b => n * 256 + b.toUInt64) 0

/-- How much to log, by a name of the environment. -/
def logLimit : IO Nat := do
  return Log.Level.limit ((← IO.getEnv "CHORD_GRAMMAR_LOG").getD "info")

end ChordGrammar.Command

open ChordGrammar Command in
/-- Generates a progression. Exit code 2 stands for a refused command line. -/
def main (words : List String) : IO UInt32 := do
  match Arguments.parse words with
  | .error e =>
    IO.eprintln ("error: " ++ e.message)
    return 2
  | .ok a =>
    let state ← match a.overrides.config with
      | some path => fileState path
      | none => pure .missing
    let outcome := run (fun _ => state) (← freshSeed) a
    for r in outcome.log (← logLimit) do
      IO.eprintln ("[" ++ r.level.name ++ "] " ++ r.message)
    for line in outcome.lines do
      IO.println line
    return outcome.exitCode
