import TypedForms.Checker

/-! The outputs that golden tests keep an eye on. -/
namespace TypedForms.Golden

/-- What is done with each source text. -/
inductive Suite where
  /-- The type of the text. -/
  | typing
  /-- The text printed back. -/
  | parsing
deriving DecidableEq

namespace Suite

/-- A result as it stands in a golden file. -/
def resultText : Except Diagnostic String → String
  | .ok text => text
  | .error diagnostic => "error: " ++ diagnostic.message

/-- The output for a source text. -/
def output : Suite → String → String
  | .typing, source => resultText (typeOfSource source)
  | .parsing, source => resultText (printedSource source)

end Suite

end TypedForms.Golden
