import TypedForms.Ty.Union
import TypedForms.Typing.Primitive

/-! The typing rules.

Every binding site is ascribed a type, so a check computes the type of each
expression from the inside out and compares it with what was declared.  The
first thing found wrong ends the check.
-/
namespace TypedForms

/-- The declared type of a variable. -/
def TypedVar.declared (var : TypedVar) : Ty := Ty.ofAscription var.type

/-- The type that the signature of a lambda declares. -/
def signatureType (params : List TypedVar) (result : Ascription) : Ty :=
  .proc (params.map TypedVar.declared) (Ty.ofAscription result)

namespace Binding

/-- The bound lambda's declared type and declared result.  Other values have none. -/
def signature? : Binding → Option (Ty × Ty)
  | .mk _ (.lambda _ params result _) => some (signatureType params result, Ty.ofAscription result)
  | _ => none

end Binding

/-- Makes the name of a definition visible to what follows; other expressions declare nothing. -/
def Context.declare (context : Context) : Expr → Check Context
  | .define _ var _ => do
    Check.log [.defined var.name var.declared]
    return context.extend var.name var.declared
  | _ => return context

/-- Computations that the typing rules can be carried out in. -/
class Checking (m : Type → Type) extends Monad m where
  /-- Carries out a check that extends no context. -/
  lift : Check α → m α
  /-- Carries out a check that extends a context. -/
  extending : Check Context → m Context

instance : Checking Check where
  lift check := check
  extending check := check

open Checking (lift extending)

section Rules

variable (m : Type → Type) [Checking m]

/-- Goes on in a context that binds as many names to as many types. -/
def Context.bindingIn (context : Context) (names : List String) (types : List Ty)
    (next : Context → m α) : m α := do
  let inner ← extending (context.extendAll names types)
  next inner

/-- Demands that each body of a recursive binding can stand for its declared result. -/
def Context.demandResultsIn (context : Context) (whole : Expr) : List (Ty × Ty) → m Unit
  | [] => return ()
  | (body, result) :: rest => do
    lift (context.demandCompatible body result fun _ => whole.text)
    context.demandResultsIn whole rest

mutual

/-- The type of an expression. -/
def Expr.inferIn (expr : Expr) (outer : Context) : m Ty := do
  let context := outer.moveTo expr.range
  lift (Check.log [.typing expr])
  match expr with
  | .number .. => return .number
  | .boolean .. => return .boolean
  | .string .. => return .string
  | .primitive _ name => lift (context.primitive name)
  | .identifier _ name => lift (context.lookup name)
  | .conditional _ test thenBranch elseBranch =>
    let testType ← test.inferIn context
    lift ((context.moveTo test.range).demandBoolean testType fun _ => expr.text)
    let thenType ← thenBranch.inferIn context
    let elseType ← elseBranch.inferIn context
    return thenType.join elseType
  | .lambda _ params result body =>
    let bodyType ← context.bindingIn m (params.map TypedVar.name) (params.map TypedVar.declared)
      fun inner => inferSequenceIn body inner
    lift (context.demandCompatible bodyType (Ty.ofAscription result) fun _ => expr.text)
    return signatureType params result
  | .application _ operator operands =>
    let operatorType ← operator.inferIn context
    let (params, result) ←
      lift (context.demandProcedure operatorType operands.length fun _ => expr.text)
    inferOperandsIn operands params expr context
    return result
  | .letForm _ bindings body =>
    inferValuesIn bindings expr context
    context.bindingIn m (bindings.map fun binding => binding.var.name)
      (bindings.map fun binding => binding.var.declared) fun inner => inferSequenceIn body inner
  | .letrecForm _ bindings body =>
    match bindings.find? fun binding => binding.signature?.isNone with
    | some binding =>
      lift ((context.moveTo binding.value.range).fail (.letrecNonProcedure expr.text))
    | none =>
      let signatures := bindings.filterMap Binding.signature?
      context.bindingIn m (bindings.map fun binding => binding.var.name)
        (signatures.map Prod.fst) fun inner => do
          let bodyTypes ← inferBodiesIn bindings inner
          inner.demandResultsIn m expr (bodyTypes.zip (signatures.map Prod.snd))
          inferSequenceIn body inner
  | .define _ var value =>
    let valueType ← extending (return context.extend var.name var.declared) >>=
      fun inner => value.inferIn inner
    lift (context.demandCompatible var.declared valueType fun _ => expr.text)
    return .void

/-- The type of a sequence is that of its last expression.  Definitions are visible to what follows
them. -/
def inferSequenceIn : List Expr → Context → m Ty
  | [], context => lift (context.fail .emptySequence)
  | [last], context => last.inferIn context
  | expr :: next :: rest, context => do
    let _ ← expr.inferIn context
    let inner ← extending (context.declare expr)
    inferSequenceIn (next :: rest) inner

/-- Checks each operand against its parameter. -/
def inferOperandsIn : List Expr → List Ty → Expr → Context → m Unit
  | operand :: operands, param :: params, whole, context => do
    let type ← operand.inferIn context
    lift (context.demandCompatible param type fun _ => whole.text)
    inferOperandsIn operands params whole context
  | _, _, _, _ => return ()

/-- Checks each value of a `let` against its declared type, none of the names being in scope. -/
def inferValuesIn : List Binding → Expr → Context → m Unit
  | [], _, _ => return ()
  | .mk var value :: rest, whole, context => do
    let type ← value.inferIn context
    lift (context.demandCompatible var.declared type fun _ => whole.text)
    inferValuesIn rest whole context

/-- The types of the bodies of the lambdas that a `letrec` binds. -/
def inferBodiesIn : List Binding → Context → m (List Ty)
  | [], _ => return []
  | .mk _ (.lambda _ params _ body) :: rest, context => do
    let type ← context.bindingIn m (params.map TypedVar.name) (params.map TypedVar.declared)
      fun inner => inferSequenceIn body inner
    let types ← inferBodiesIn rest context
    return type :: types
  | _ :: rest, context => inferBodiesIn rest context

end

/-- The type of a program. -/
def Program.inferIn (program : Program) (context : Context) : m Ty := do
  lift (Check.log [.program program.length])
  inferSequenceIn m program context

end Rules

/-- Checks an expression. -/
abbrev Expr.infer (expr : Expr) (outer : Context) : Check Ty := expr.inferIn Check outer

/-- Checks a sequence. -/
abbrev inferSequence (exprs : List Expr) (context : Context) : Check Ty :=
  inferSequenceIn Check exprs context

/-- Checks a program. -/
abbrev Program.infer (program : Program) (context : Context) : Check Ty :=
  program.inferIn Check context

end TypedForms
