import TypedForms.Parser.Reading
import TypedForms.Typing.Infer

/-! Checking expressions, programs and source texts from an empty context. -/
namespace TypedForms

/-- Checks an expression on its own. -/
def Expr.check (expr : Expr) : Outcome Ty :=
  (expr.infer .empty).run

/-- Checks a program. -/
def Program.check (program : Program) : Outcome Ty :=
  (Program.infer program .empty).run

/-- Reads a type. -/
def Ty.parse (source : String) : Except ParseError Ty :=
  (Ascription.parse source).map Ty.ofAscription

/-- The type of a source text as a reader sees it, or what is wrong with the text. -/
def typeOfSource (source : String) : Except Diagnostic String :=
  match Program.parse source with
  | .error error => .error error.diagnostic
  | .ok program =>
    match program.check.result with
    | .error error => .error error.diagnostic
    | .ok type => .ok type.text

/-- The source text printed back, or what is wrong with it. -/
def printedSource (source : String) : Except Diagnostic String :=
  match Program.parse source with
  | .error error => .error error.diagnostic
  | .ok program => .ok program.text

/-- The normal form of a type as a reader sees it, or what is wrong with its text. -/
def normalTypeText (source : String) : Except Diagnostic String :=
  match Ty.parse source with
  | .error error => .error error.diagnostic
  | .ok type => .ok type.text

end TypedForms
