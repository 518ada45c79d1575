import TypedForms.Checker

/-! The command line: how arguments are read, what each command writes and the
exit status it ends with.
-/
namespace TypedForms.CommandLine

/-- The commands. -/
inductive Command where
  /-- Checks a file. -/
  | check (file : String)
  /-- Checks a program that is given as an argument. -/
  | expr (source : String)
  /-- Writes a type in normal form. -/
  | parseType (source : String)
deriving DecidableEq

/-- A command, and whether the log is to be written. -/
structure Invocation where
  verbose : Bool
  command : Command
deriving DecidableEq

/-- The command that its name and what follows the name ask for.  Files have names that are not
empty. -/
def Command.ofWords? : List String → Option Command
  | ["check", file] => if file.isEmpty then none else some (.check file)
  | ["expr", source] => some (.expr source)
  | ["parse-type", source] => some (.parseType source)
  | _ => none

namespace Invocation

/-- The words that ask for the log. -/
def verboseFlags : List String := ["-v", "--verbose"]

/-- A word that is meant as an option.  A hyphen alone is not. -/
def isOption (word : String) : Bool :=
  word.startsWith "-" && word != "-"

/-- What the arguments ask for.  The flag may stand anywhere before `--`, but once only; what
follows `--` is taken as it is.  The name of the command stands before it. -/
def ofArguments? (arguments : List String) : Option Invocation :=
  let options := arguments.takeWhile (· != "--")
  let literal := (arguments.dropWhile (· != "--")).drop 1
  let (flags, words) := options.partition verboseFlags.contains
  if words.isEmpty || words.any isOption || 1 < flags.length then none
  else (Command.ofWords? (words ++ literal)).map fun command => ⟨!flags.isEmpty, command⟩

end Invocation

/-- Why a file cannot be read as text. -/
inductive ReadFailure where
  | missing
  | directory
  | notText
  | other (reason : String)
deriving DecidableEq

/-- The text of a read failure. -/
def ReadFailure.message : ReadFailure → String
  | .missing => "No such file or directory (os error 2)"
  | .directory => "Is a directory (os error 21)"
  | .notText => "stream did not contain valid UTF-8"
  | .other reason => reason

/-- Files are texts in UTF-8. -/
def decode (bytes : ByteArray) : Except ReadFailure String :=
  match String.fromUTF8? bytes with
  | some text => .ok text
  | none => .error .notText

/-- An entry of the log: the part of the program that makes it and what it says. -/
structure LogEntry where
  target : String
  text : String
deriving DecidableEq

/-- An entry as a line of the log, without the time at which it is written. -/
def LogEntry.line (entry : LogEntry) : String :=
  "[DEBUG " ++ entry.target ++ "] " ++ entry.text ++ "\n"

/-- What a command leaves: its exit status, the log and what it wrote to each of the two outputs.
The log goes to the second output, before anything else. -/
structure Report where
  exit : Nat
  log : List LogEntry
  stdout : String
  stderr : String
deriving DecidableEq

/-- The name that stands for a source text given as an argument. -/
def argumentName : String := "<argument>"

/-- What the check of a source text logs of programs and definitions. -/
def checkLog (source : String) : List LogEntry :=
  match Program.parse source with
  | .error _ => []
  | .ok program => (program.check.events.filter Event.isBrief).map fun event =>
      ⟨"tyl_checker::infer::program", event.text⟩

/-- A result goes to the standard output, a diagnostic to the other one.  A diagnostic that breaks
off ends the program there. -/
def report (source file : String) (log : List LogEntry) : Except Diagnostic String → Report
  | .ok text => ⟨0, log, text ++ "\n", ""⟩
  | .error diagnostic =>
    match diagnostic.render source file with
    | .whole text => ⟨1, log, "", text ++ "\n"⟩
    | .brokenOff text => ⟨101, log, "", text ++ Printed.breakMessage ++ "\n"⟩

/-- Runs a command with the log written; `read` gives the contents of files. -/
def runLogged (read : String → Except ReadFailure String) : Command → Report
  | .check file =>
    match read file with
    | .error failure => ⟨1, [], "", "cannot read '" ++ file ++ "': " ++ failure.message ++ "\n"⟩
    | .ok source =>
      report source file (⟨"tyl", "checking '" ++ file ++ "'"⟩ :: checkLog source)
        (typeOfSource source)
  | .expr source => report source argumentName (checkLog source) (typeOfSource source)
  | .parseType source => report source argumentName [] (normalTypeText source)

/-- Does what the arguments ask for.  Unless they ask for the log it is not written. -/
def run (read : String → Except ReadFailure String) (invocation : Invocation) : Report :=
  let report := runLogged read invocation.command
  if invocation.verbose then report else { report with log := [] }

end TypedForms.CommandLine
