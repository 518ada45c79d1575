/-! Types of the checker: four atomic types, variables that stand for
themselves only, procedure types and unions.
-/
namespace TypedForms

/-- A type.  Variables are never replaced: two of them are one type when their names are equal. -/
inductive Ty where
  | number
  | boolean
  | string
  | void
  | var (name : String)
  | proc (params : List Ty) (result : Ty)
  | union (members : List Ty)

/-- The shape of a type without what it is built from. -/
inductive Tag where
  | number
  | boolean
  | string
  | void
  | var
  | proc
  | union
deriving DecidableEq

namespace Ty

mutual

/-- Decides whether two types are the same. -/
def same : Ty → Ty → Bool
  | .number, .number => true
  | .boolean, .boolean => true
  | .string, .string => true
  | .void, .void => true
  | .var x, .var y => x == y
  | .proc params result, .proc params' result' => sameAll params params' && same result result'
  | .union members, .union members' => sameAll members members'
  | _, _ => false

/-- Decides whether two lists of types are the same. -/
def sameAll : List Ty → List Ty → Bool
  | [], [] => true
  | type :: rest, type' :: rest' => same type type' && sameAll rest rest'
  | _, _ => false

end

mutual

theorem same_eq_true_iff (left right : Ty) : same left right = true ↔ left = right := by
  cases left <;> cases right <;> simp [same, sameAll_eq_true_iff, same_eq_true_iff]

theorem sameAll_eq_true_iff (left right : List Ty) : sameAll left right = true ↔ left = right := by
  cases left <;> cases right <;> simp [sameAll, sameAll_eq_true_iff, same_eq_true_iff]

end

instance : DecidableEq Ty := fun left right =>
  decidable_of_iff (same left right = true) (same_eq_true_iff left right)

/-- The tag of a type. -/
def tag : Ty → Tag
  | .number => .number
  | .boolean => .boolean
  | .string => .string
  | .void => .void
  | .var _ => .var
  | .proc .. => .proc
  | .union _ => .union

/-- The atomic types have no parts and no name. -/
def isAtomic : Ty → Bool
  | .number | .boolean | .string | .void => true
  | _ => false

/-- Procedure types. -/
def isProc : Ty → Bool
  | .proc .. => true
  | _ => false

mutual

/-- The text of a type.  A union is written as nested unions of two. -/
def text : Ty → String
  | .number => "number"
  | .boolean => "boolean"
  | .string => "string"
  | .void => "void"
  | .var name => name
  | .proc [] result => "(Empty -> " ++ result.text ++ ")"
  | .proc (param :: params) result =>
    "(" ++ " * ".intercalate (param.text :: texts params) ++ " -> " ++ result.text ++ ")"
  | .union members => unionText members

/-- The texts of a list of types. -/
def texts : List Ty → List String
  | [] => []
  | type :: rest => type.text :: texts rest

/-- The text of the union of a list of types.  One type alone needs no union around it. -/
def unionText : List Ty → String
  | [] => "(union)"
  | [type] => type.text
  | type :: next :: rest => "(union " ++ type.text ++ " " ++ unionText (next :: rest) ++ ")"

end

end Ty

end TypedForms
