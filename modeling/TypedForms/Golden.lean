import TypedForms.FileName
import TypedForms.Text.Blank
import TypedForms.Text.Order

/-! Golden tests: every source file of a directory is given to a function, whose
output is compared with the file that holds the expected one.  Where there is
no such file yet, it is made from the output.
-/
namespace TypedForms.Golden

/-- What a name in a directory stands for. -/
inductive Entry where
  | file (content : String)
  | folder
deriving DecidableEq

/-- A directory as names with their entries. -/
abbrev Directory := List (String × Entry)

namespace Directory

/-- Writes a file, over the one of that name if there is one. -/
def write (directory : Directory) (name content : String) : Directory :=
  match directory with
  | [] => [(name, .file content)]
  | entry :: rest =>
    if entry.1 = name then (name, .file content) :: rest
    else entry :: Directory.write rest name content

/-- What a name leads to.  Two points lead out of the directory, to the one that holds it. -/
def resolve? (directory : Directory) (name : String) : Option Entry :=
  if name = ".." then some .folder else directory.lookup name

/-- The regular files with their contents, sorted by name. -/
def files (directory : Directory) : List (String × String) :=
  Text.sortBy Prod.fst (directory.filterMap fun entry =>
    match entry.2 with
    | .file content => some (entry.1, content)
    | .folder => none)

end Directory

/-- Source files have this extension. -/
def sourceExtension : String := "tyl"

/-- Files with expected outputs have this extension. -/
def expectedExtension : String := "expect"

/-- A source file: its name, the stem of its name and what it holds. -/
structure Source where
  file : String
  stem : String
  content : String
deriving DecidableEq

/-- Where the expected output of a source file belongs. -/
def Source.expectedName (source : Source) : String :=
  FileName.withExtension source.file expectedExtension

/-- The source files of a directory, sorted by name. -/
def sources (directory : Directory) : List Source :=
  directory.files.filterMap fun file =>
    match FileName.split? file.1 with
    | some (stem, extension) =>
      if extension = sourceExtension then some ⟨file.1, stem, file.2⟩ else none
    | none => none

/-- A test whose output is not the expected one. -/
structure Failure where
  stem : String
  expected : String
  found : String
deriving DecidableEq

/-- A failure written out. -/
def Failure.text (failure : Failure) : String :=
  failure.stem ++ "\n  expected: " ++ failure.expected ++ "\n     found: " ++ failure.found

/-- How a run over a directory ended. -/
inductive Verdict where
  | passed
  | noDirectory
  | noTests
  | failed (failures : List Failure)
  /-- An expected output was to be written where a folder stands. -/
  | folderInTheWay
deriving DecidableEq

/-- The text that goes with a verdict on the directory of the given name.  A passed run has none. -/
def Verdict.message? (directoryName : String) : Verdict → Option String
  | .passed => none
  | .noDirectory =>
    some ("cannot read test directory '" ++ directoryName ++
      "': No such file or directory (os error 2)")
  | .noTests => some ("no tests found in '" ++ directoryName ++ "'")
  | .failed failures =>
    some ("some tests failed:\n" ++ "\n".intercalate (failures.map Failure.text))
  | .folderInTheWay =>
    some ("called `Result::unwrap()` on an `Err` value: Os \x7b code: 21, kind: IsADirectory, " ++
      "message: \"Is a directory\" \x7d")

/-- Runs the tests of the sources one after the other, with the failures found so far.  Trailing
blanks do not count in comparisons and are not written. -/
def runAll (output : String → String) :
    List Source → Directory → List Failure → Directory × Verdict
  | [], directory, failures => (directory, if failures.isEmpty then .passed else .failed failures)
  | source :: rest, directory, failures =>
    let found := Text.trimEnd (output source.content)
    match directory.resolve? source.expectedName with
    | some (.file content) =>
      let expected := Text.trimEnd content
      if expected = found then runAll output rest directory failures
      else runAll output rest directory (failures ++ [⟨source.stem, expected, found⟩])
    | some .folder => (directory, .folderInTheWay)
    | none => runAll output rest (directory.write source.expectedName (found ++ "\n")) failures

/-- Runs the tests of a directory that exists and gives what it holds afterwards. -/
def runIn (output : String → String) (directory : Directory) : Directory × Verdict :=
  match sources directory with
  | [] => (directory, .noTests)
  | source :: rest => runAll output (source :: rest) directory []

/-- Runs the tests of a directory, if there is one. -/
def run (output : String → String) : Option Directory → Directory × Verdict
  | none => ([], .noDirectory)
  | some directory => runIn output directory

end TypedForms.Golden
