import TypedForms.Typing.Context

/-! The types of the primitive operators.  Operators that take values of any
type get type variables of their own at every use.
-/
namespace TypedForms

/-- The families of primitive operators that have one kind of type. -/
inductive Primitive where
  | arithmetic
  | comparison
  | connective
  | negation
  | predicate
  | equality
  | display
  | newline
deriving DecidableEq

namespace Primitive

/-- The operators that can be used.  A name that is reserved but missing here has no type yet. -/
def table : List (String × Primitive) :=
  [("+", .arithmetic), ("-", .arithmetic), ("*", .arithmetic), ("/", .arithmetic),
    (">", .comparison), ("<", .comparison), ("=", .comparison),
    ("and", .connective), ("or", .connective), ("not", .negation),
    ("number?", .predicate), ("boolean?", .predicate), ("string?", .predicate),
    ("list?", .predicate), ("pair?", .predicate), ("symbol?", .predicate),
    ("eq?", .equality), ("string=?", .equality),
    ("display", .display), ("newline", .newline)]

/-- The family of an operator. -/
def ofName? (name : String) : Option Primitive :=
  table.lookup name

/-- The type of an operator at one use. -/
def signature : Primitive → Check Ty
  | .arithmetic => return .proc [.number, .number] .number
  | .comparison => return .proc [.number, .number] .boolean
  | .connective => return .proc [.boolean, .boolean] .boolean
  | .negation => return .proc [.boolean] .boolean
  | .predicate => do
    let param ← Check.newVar
    return .proc [param] .boolean
  | .equality => do
    let first ← Check.newVar
    let second ← Check.newVar
    return .proc [first, second] .boolean
  | .display => do
    let param ← Check.newVar
    return .proc [param] .void
  | .newline => return .proc [] .void

end Primitive

/-- The type of the operator with the given name. -/
def Context.primitive (context : Context) (name : String) : Check Ty :=
  match Primitive.ofName? name with
  | some primitive => primitive.signature
  | none => context.fail (.unimplementedPrimitive name)

end TypedForms
