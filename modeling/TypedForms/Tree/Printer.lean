import TypedForms.Tree.Expr

/-! The text of expressions: the form that the grammar reads back, with single
spaces and no line breaks of its own.
-/
namespace TypedForms

/-- A typed variable written out. -/
def TypedVar.text (var : TypedVar) : String :=
  "(" ++ var.name ++ " : " ++ var.type.text ++ ")"

namespace Expr

/-- The text of the truth values. -/
def booleanText (value : Bool) : String := if value then "#t" else "#f"

mutual

/-- An expression written out. -/
def text : Expr → String
  | .number _ value => value.text
  | .boolean _ value => booleanText value
  | .string _ content => "\"" ++ content ++ "\""
  | .identifier _ name => name
  | .primitive _ name => name
  | .conditional _ test thenBranch elseBranch =>
    "(if " ++ test.text ++ " " ++ thenBranch.text ++ " " ++ elseBranch.text ++ ")"
  | .lambda _ params result body =>
    "(lambda (" ++ " ".intercalate (params.map TypedVar.text) ++ ") : " ++ result.text ++ " " ++
      " ".intercalate (texts body) ++ ")"
  | .application _ operator [] => "(" ++ operator.text ++ ")"
  | .application _ operator (operand :: operands) =>
    "(" ++ operator.text ++ " " ++ " ".intercalate (operand.text :: texts operands) ++ ")"
  | .letForm _ bindings body =>
    "(let (" ++ " ".intercalate (bindingTexts bindings) ++ ") " ++
      " ".intercalate (texts body) ++ ")"
  | .letrecForm _ bindings body =>
    "(letrec (" ++ " ".intercalate (bindingTexts bindings) ++ ") " ++
      " ".intercalate (texts body) ++ ")"
  | .define _ var value => "(define " ++ var.text ++ " " ++ value.text ++ ")"

/-- The texts of a list of expressions. -/
def texts : List Expr → List String
  | [] => []
  | expr :: rest => expr.text :: texts rest

/-- The texts of a list of bindings. -/
def bindingTexts : List Binding → List String
  | [] => []
  | .mk var value :: rest => ("(" ++ var.text ++ " " ++ value.text ++ ")") :: bindingTexts rest

end

end Expr

/-- A program written out, one top level expression to a line. -/
def Program.text (program : Program) : String :=
  "\n".intercalate (Expr.texts program)

end TypedForms
