import TypedForms.Diagnostic
import TypedForms.Ty.Basic

/-! Type errors: what a check can find wrong, and the texts that say so. -/
namespace TypedForms

namespace TypeError

/-- What is wrong.  `expr` is the text of the expression in which it was found. -/
inductive Cause where
  | unboundVariable (name : String)
  | unimplementedPrimitive (name : String)
  | testNotBoolean (found : Ty) (expr : String)
  | incompatible (left right : Ty) (expr : String)
  | nonProcedure (found : Ty) (expr : String)
  | arityMismatch (expected found : Nat) (expr : String)
  | letrecNonProcedure (expr : String)
  | emptySequence
  /-- Names and types to be bound are not equally many. -/
  | unevenBindings
deriving DecidableEq

/-- The text of a cause. -/
def Cause.message : Cause → String
  | .unboundVariable name => "unbound variable '" ++ name ++ "'"
  | .unimplementedPrimitive name => "primitive not yet implemented: " ++ name
  | .testNotBoolean found expr =>
    "test of if must be a boolean but found '" ++ found.text ++ "' in " ++ expr
  | .incompatible left right expr =>
    "incompatible types '" ++ left.text ++ "' and '" ++ right.text ++ "' in " ++ expr
  | .nonProcedure found expr => "application of non-procedure '" ++ found.text ++ "' in " ++ expr
  | .arityMismatch expected found expr =>
    "wrong number of arguments, expected " ++ toString expected ++ " but found " ++
      toString found ++ " in " ++ expr
  | .letrecNonProcedure expr => "letrec only supports binding of procedures: " ++ expr
  | .emptySequence => "unexpected empty list of expressions"
  | .unevenBindings => "itertools: .zip_eq() reached end of one iterator before the other"

end TypeError

/-- A type error and its place. -/
structure TypeError where
  cause : TypeError.Cause
  range : Range
deriving DecidableEq

namespace TypeError

/-- A type error as a diagnostic. -/
def diagnostic (error : TypeError) : Diagnostic := ⟨error.cause.message, error.range⟩

end TypeError

end TypedForms
