import ParserForge.Command.Report

open ParserForge Command

/-- The file at a path, or why it cannot be read. -/
def readSource (path : String) : IO Source := do
  try
    return .bytes (← IO.FS.readBinFile path)
  catch e =>
    match e with
    | .noFileOrDirectory .. => return .missing
    | e => return .unreadable (toString e)

/-- The arguments that the program takes. -/
def usage : String :=
  "usage: [--method slr1|lr1] [--dump grammar|first-follow|automaton|table]... " ++
    "[--input TERMINALS] GRAMMAR"

/-- Runs the command with the arguments of the program. -/
def main (arguments : List String) : IO UInt32 := do
  match Options.parse? arguments with
  | none =>
    IO.eprintln usage
    return 2
  | some options =>
    let report := run options (← readSource options.path)
    IO.print report.stdout
    IO.eprint report.stderr
    return report.exitCode.toUInt32
