import TypedForms.Number.Printer
import TypedForms.Tree.Ascription

/-! Expressions as they are written, with the place of each node.  Every
binding site carries an ascription.
-/
namespace TypedForms

/-- A variable with its declared type. -/
structure TypedVar where
  name : String
  type : Ascription

mutual

/-- An expression. -/
inductive Expr where
  | number (range : Range) (value : Number)
  | boolean (range : Range) (value : Bool)
  | string (range : Range) (content : String)
  | identifier (range : Range) (name : String)
  | primitive (range : Range) (name : String)
  | conditional (range : Range) (test thenBranch elseBranch : Expr)
  | lambda (range : Range) (params : List TypedVar) (result : Ascription) (body : List Expr)
  | application (range : Range) (operator : Expr) (operands : List Expr)
  | letForm (range : Range) (bindings : List Binding) (body : List Expr)
  | letrecForm (range : Range) (bindings : List Binding) (body : List Expr)
  | define (range : Range) (var : TypedVar) (value : Expr)

/-- A variable and the expression that it is bound to. -/
inductive Binding where
  | mk (var : TypedVar) (value : Expr)

end

/-- A program is the list of its top level expressions, checked in order. -/
abbrev Program := List Expr

namespace Binding

/-- The bound variable. -/
def var : Binding → TypedVar
  | .mk var _ => var

/-- The expression that gives the value. -/
def value : Binding → Expr
  | .mk _ value => value

end Binding

namespace Expr

/-- The place of a node. -/
def range : Expr → Range
  | .number range _ | .boolean range _ | .string range _ => range
  | .identifier range _ | .primitive range _ => range
  | .conditional range _ _ _ | .lambda range _ _ _ | .application range _ _ => range
  | .letForm range _ _ | .letrecForm range _ _ | .define range _ _ => range

/-- Names that stand for primitive operators and cannot be bound by a program. -/
def primitiveNames : List String :=
  ["+", "-", "*", "/", ">", "<", "=", "not", "and", "or", "eq?", "string=?", "number?", "boolean?",
    "string?", "symbol?", "list?", "pair?", "display", "newline", "cons", "car", "cdr", "list"]

/-- A name in an expression is a primitive operator or a reference to a variable. -/
def ofName (range : Range) (name : String) : Expr :=
  if primitiveNames.contains name then .primitive range name else .identifier range name

end Expr

end TypedForms
