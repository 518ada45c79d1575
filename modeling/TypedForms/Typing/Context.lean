import TypedForms.Typing.Check

/-! Contexts: the types of the names in scope, and the place that is being
checked.  Extending a context leaves it as it was, so every scope keeps its own
bindings.
-/
namespace TypedForms

/-- The names in scope, the innermost first, and the place that errors are reported at. -/
structure Context where
  bindings : List (String × Ty)
  range : Range
deriving DecidableEq

namespace Context

/-- Nothing is in scope. -/
def empty : Context := ⟨[], .origin⟩

/-- Moves to another place. -/
def moveTo (context : Context) (range : Range) : Context :=
  { context with range := range }

/-- Binds a name, hiding any binding it had. -/
def extend (context : Context) (name : String) (type : Ty) : Context :=
  { context with bindings := (name, type) :: context.bindings }

/-- Binds names to types pair by pair.  Of pairs with one name the last counts. -/
def extendPairs (context : Context) (pairs : List (String × Ty)) : Context :=
  { context with bindings := pairs.reverse ++ context.bindings }

/-- The type of a name in scope. -/
def lookup? (context : Context) (name : String) : Option Ty :=
  context.bindings.lookup name

/-- Fails at the place of the context. -/
def fail (context : Context) (cause : TypeError.Cause) : Check α :=
  .fail ⟨cause, context.range⟩

/-- Binds as many names to as many types; the two lists must be equally long. -/
def extendAll (context : Context) (names : List String) (types : List Ty) : Check Context :=
  if names.length = types.length then
    return context.extendPairs (names.zip types)
  else
    context.fail .unevenBindings

/-- The type of a name, which must be in scope. -/
def lookup (context : Context) (name : String) : Check Ty :=
  match context.lookup? name with
  | some type => return type
  | none => context.fail (.unboundVariable name)

/-- Demands that one type can stand for another.  `text` is the expression where they met. -/
def demandCompatible (context : Context) (left right : Ty) (text : Unit → String) : Check Unit := do
  let holds ← Check.compatible left right
  if holds then
    return ()
  else
    context.fail (.incompatible left right (text ()))

/-- Demands that the type of a test can stand for a boolean. -/
def demandBoolean (context : Context) (type : Ty) (text : Unit → String) : Check Unit := do
  let holds ← Check.compatible type .boolean
  if holds then
    return ()
  else
    context.fail (.testNotBoolean type (text ()))

/-- The parameters and the result of a type that is applied to so many operands. -/
def demandProcedure (context : Context) (type : Ty) (operands : Nat) (text : Unit → String) :
    Check (List Ty × Ty) :=
  match type with
  | .proc params result =>
    if params.length = operands then
      return (params, result)
    else
      context.fail (.arityMismatch params.length operands (text ()))
  | found => context.fail (.nonProcedure found (text ()))

end Context

end TypedForms
