import TypedForms.Proofs.CompatibilityKernel
import TypedForms.Proofs.LexicalScoping
import TypedForms.Proofs.UnplacedChecks

/-! What checks come to when they succeed.

Two ways to write the same thing may be refused for different reasons, and after
different numbers of names.  What matters is which of them succeed, with which
value and at which count of names.  In this view all failures are the same, the
log does not exist, and demanding compatibility is a condition that may be asked
earlier or later.
-/
namespace TypedForms

namespace Check

/-- From the count of names before a check, its value and the count after it.  There is none when
the check fails. -/
def success (check : Check α) : StateT Nat Option α := fun count =>
  match check count with
  | ⟨.ok value, created, _⟩ => some (value, count + created.length)
  | ⟨.error _, _, _⟩ => none

theorem success_iff {check : Check α} : check.success count = some (value, later) ↔
    (check count).result = .ok value ∧ later = count + (check count).created.length := by
  unfold success
  generalize check count = outcome
  obtain ⟨result, created, events⟩ := outcome
  cases result <;> simp [eq_comm]

theorem result_iff {check : Check α} :
    (check count).result = .ok value ↔ ∃ later, check.success count = some (value, later) := by
  simp only [success_iff, exists_and_left, exists_eq, and_true]

@[simp] theorem success_pure (value : α) : (pure value : Check α).success = pure value :=
  rfl

@[simp] theorem success_bind (first : Check α) (next : α → Check β) :
    (first >>= next).success = first.success >>= fun value => (next value).success := by
  funext count
  change success (andThen first next) count =
    (first.success count).bind fun ended => (next ended.1).success ended.2
  match ended : first count with
  | ⟨.error error, created, events⟩ => simp [success, andThen_error ended, ended]
  | ⟨.ok value, created, events⟩ =>
    simp only [success, andThen_ok ended, ended, Option.bind_some]
    cases next value (count + created.length) with
    | mk result later _ => cases result <;> simp [Nat.add_assoc]

@[simp] theorem success_log (events : List Event) : (log events).success = pure () :=
  rfl

@[simp] theorem success_fail (context : Context) (cause : TypeError.Cause) :
    (context.fail cause : Check α).success = failure :=
  rfl

@[simp] theorem success_ite (condition : Prop) [Decidable condition] (left right : Check α) :
    (if condition then left else right).success =
      if condition then left.success else right.success := by
  split <;> rfl

@[simp] theorem success_compatible (left right : Ty) :
    (compatible left right).success = pure (left.compatible right) :=
  rfl

/-- Demanding compatibility asks for nothing but the answer. -/
@[simp] theorem success_demandCompatible (context : Context) (left right : Ty)
    (text : Unit → String) :
    (context.demandCompatible left right text).success =
      guard (left.compatible right = true) := by
  simp [Context.demandCompatible, guard]

/-- Demanding a procedure asks for its parameters, as many as there are operands, and its result. -/
@[simp] theorem success_demandProcedure (context : Context) (type : Ty) (operands : Nat)
    (text : Unit → String) :
    (context.demandProcedure type operands text).success =
      match type with
      | .proc params result =>
        if params.length = operands then pure (params, result) else failure
      | _ => failure := by
  cases type with
  | proc params result => simp [Context.demandProcedure]
  | _ => rfl

/-- The count is neither looked at nor changed. -/
def Constant (ended : StateT Nat Option α) : Prop :=
  ∃ found : Option α, ∀ count, ended count = found.map fun value => (value, count)

theorem constant_guard (condition : Prop) [Decidable condition] :
    Constant (guard condition : StateT Nat Option Unit) := by
  by_cases holds : condition
  · exact ⟨some (), fun _ => by simp only [guard, holds, ↓reduceIte]; rfl⟩
  · exact ⟨none, fun _ => by simp only [guard, holds, ↓reduceIte]; rfl⟩

theorem constant_pure (value : α) : Constant (pure value) :=
  ⟨some value, fun _ => rfl⟩

theorem Constant.bind {ended : StateT Nat Option α} {next : α → StateT Nat Option β}
    (constant : Constant ended) (nextConstant : ∀ value, Constant (next value)) :
    Constant (ended >>= next) := by
  obtain ⟨found, same⟩ := constant
  cases found with
  | none => exact ⟨none, fun count => by simp [Bind.bind, StateT.bind, same]⟩
  | some value =>
    obtain ⟨result, sameNext⟩ := nextConstant value
    exact ⟨result, fun count => by simp [Bind.bind, StateT.bind, same, sameNext]⟩

/-- What is constant may as well be done first. -/
theorem Constant.first {ended : StateT Nat Option α} (constant : Constant ended)
    (before : StateT Nat Option β) (next : β → α → StateT Nat Option γ) :
    (do let value ← before; let other ← ended; next value other) =
      (do let other ← ended; let value ← before; next value other) := by
  obtain ⟨found, same⟩ := constant
  funext count
  change ((before count).bind fun pair => (ended pair.2).bind fun other =>
      next pair.1 other.1 other.2) =
    (ended count).bind fun other => (before other.2).bind fun pair => next pair.1 other.1 pair.2
  simp only [same]
  cases found with
  | some value => rfl
  | none => cases before count <;> rfl

theorem success_of_related {left right : Check α} (related : left.Related .upToPlaces Eq right) :
    left.success = right.success := by
  funext count
  obtain ⟨created, _, belong⟩ := related count count rfl
  unfold success
  generalize left count = outcome at created belong ⊢
  generalize right count = other at created belong ⊢
  obtain ⟨result, names, events⟩ := outcome
  obtain ⟨result', names', events'⟩ := other
  cases belong with
  | ok same => simp only [same, show names.length = names'.length from created]
  | error => rfl

end Check

/-! ## Rules for what succeeds -/

/-- Places do not decide what succeeds. -/
theorem Expr.success_unplaced {expr other : Expr} (same : expr.unplaced = other.unplaced)
    (context : Context) : (expr.infer context).success = (other.infer context).success := by
  have placeless : ∀ expr : Expr,
      (expr.infer context).success = (expr.unplaced.infer context).success :=
    fun expr => Check.success_of_related (expr.infer_unplaced rfl)
  rw [placeless expr, placeless other, same]

/-- Contexts that agree on the free identifiers of a sequence let the same succeed. -/
theorem success_agree {exprs : List Expr} {left right : Context}
    (agree : Context.AgreeOn (freeSequence exprs) left right) :
    (inferSequence exprs left).success = (inferSequence exprs right).success := by
  by_cases empty : exprs = []
  · rw [empty]
    rfl
  · rw [inferSequence_agree exprs agree fun isEmpty => absurd isEmpty empty]

theorem success_sequence {expr : Expr} {rest : List Expr} (more : rest ≠ []) (context : Context) :
    (inferSequence (expr :: rest) context).success = (do
      let _ ← (expr.infer context).success
      (inferSequence rest (context.extendPairs expr.definition)).success) := by
  obtain ⟨next, rest, rfl⟩ := List.exists_cons_of_ne_nil more
  simp [inferSequence_cons]

section Rules

variable {place : Range} {body : List Expr} {context : Context}

theorem Expr.success_lambda {params : List TypedVar} {result : Ascription} :
    ((lambda place params result body).infer context).success = (do
      let type ← (inferSequence body ((context.moveTo place).bindVars params)).success
      guard (type.compatible (Ty.ofAscription result) = true)
      return signatureType params result) := by
  simp only [infer_lambda, Check.success_bind, Check.success_log, Check.success_demandCompatible,
    Check.success_pure, pure_bind]

theorem Expr.success_letForm {bindings : List Binding} :
    ((letForm place bindings body).infer context).success = (do
      (inferValuesIn Check bindings (.letForm place bindings body) (context.moveTo place)).success
      (inferSequence body
        ((context.moveTo place).bindVars (bindings.map Binding.var))).success) := by
  simp [infer_letForm]

theorem Expr.success_application {operator : Expr} {operands : List Expr} :
    ((application place operator operands).infer context).success = (do
      match ← (operator.infer (context.moveTo place)).success with
      | .proc params result =>
        if params.length = operands.length then
          (inferOperandsIn Check operands params (.application place operator operands)
            (context.moveTo place)).success
          return result
        else failure
      | _ => failure) := by
  simp only [infer, inferIn, Checking.lift, range, Check.success_bind, Check.success_log, pure_bind,
    Check.success_demandProcedure]
  congr 1
  funext type
  cases type with
  | proc params result =>
    by_cases fits : params.length = operands.length
    · simp only [fits, ↓reduceIte, pure_bind, Check.success_pure]
    · simp only [fits, ↓reduceIte]
      rfl
  | _ => rfl

theorem Expr.success_define {var : TypedVar} {value : Expr} :
    ((define place var value).infer context).success = (do
      let type ← (value.infer ((context.moveTo place).extend var.name var.declared)).success
      guard (var.declared.compatible type = true)
      return .void) := by
  simp only [infer, inferIn, Checking.lift, Checking.extending, range, Check.success_bind,
    Check.success_log, Check.success_demandCompatible, Check.success_pure, pure_bind]

end Rules

end TypedForms
