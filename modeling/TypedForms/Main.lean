import TypedForms.CommandLine

/-! The command line program. -/
namespace TypedForms.CommandLine

/-- Reads a file, with the reason when that fails. -/
def readFile (file : String) : IO (Except ReadFailure String) := do
  try
    return decode (← IO.FS.readBinFile file)
  catch
    | .noFileOrDirectory .. => return .error .missing
    | .inappropriateType .. => return .error .directory
    | error => return .error (.other (toString error))

/-- Does what the arguments ask for and writes what it leaves. -/
def execute (invocation : Invocation) : IO UInt32 := do
  let content ← match invocation.command with
    | .check file => readFile file
    | _ => pure (.ok "")
  let report := run (fun _ => content) invocation
  for entry in report.log do
    IO.eprint entry.line
  IO.print report.stdout
  IO.eprint report.stderr
  return report.exit.toUInt32

end TypedForms.CommandLine

/-- Runs the command that the arguments ask for. -/
def main (arguments : List String) : IO UInt32 := do
  match TypedForms.CommandLine.Invocation.ofArguments? arguments with
  | some invocation => TypedForms.CommandLine.execute invocation
  | none =>
    IO.eprintln "usage: [-v | --verbose] (check FILE | expr CODE | parse-type TYPE)"
    return 2
