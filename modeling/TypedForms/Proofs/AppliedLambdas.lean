import TypedForms.Proofs.CreatedNames
import TypedForms.Proofs.SuccessfulChecks

/-! A `let` as the application of a lambda.

The two forms ask for the same things in a different order: a `let` checks its
values first, the application its body.  The order is noticed only in the names
that are created on the way.  A check that creates none does not look at the
count, so without operators that take values of any type both forms come to the
same.
-/
namespace TypedForms

/-! ## Operators that take values of any type -/

namespace Expr

/-- The operators that take values of any type. -/
def polymorphicNames : List String :=
  ["number?", "boolean?", "string?", "list?", "pair?", "symbol?", "eq?", "string=?", "display"]

/-- None of the nodes is an operator that takes values of any type. -/
def Monomorphic (nodes : List Expr) : Prop :=
  ∀ node ∈ nodes, node.isOperatorOf polymorphicNames = false

theorem Monomorphic.namesFor {nodes : List Expr} (monomorphic : Monomorphic nodes) :
    namesFor nodes = 0 := by
  have unused : ∀ names ⊆ polymorphicNames, nodes.countP (isOperatorOf names) = 0 := by
    intro names included
    refine List.countP_eq_zero.mpr fun node listed operator => ?_
    have monomorphicHere := monomorphic node listed
    cases node with
    | primitive place name =>
      have member := included (List.contains_iff_mem.mp operator)
      rw [isOperatorOf, List.contains_iff_mem.mpr member] at monomorphicHere
      cases monomorphicHere
    | _ => cases operator
  rw [Expr.namesFor, unused singleVariable (by simp [singleVariable, polymorphicNames]),
    unused twoVariables (by simp [twoVariables, polymorphicNames])]

end Expr

/-! ## Checks that do not look at the count -/

/-- No names are created, and it does not matter how many have been created before. -/
def Likeness.uncounted : Likeness where
  counts _ _ := True
  created := .empty
  events := .same
  errors := Eq
  later _ _ := trivial

theorem Likeness.uncounted_reflexive : uncounted.Reflexive :=
  ⟨fun _ => rfl, fun _ => rfl⟩

/-- An operator that does not take values of any type has a type without variables. -/
theorem Check.related_signature_uncounted {place : Range} {name : String} {primitive : Primitive}
    (monomorphic : (Expr.primitive place name).isOperatorOf Expr.polymorphicNames = false)
    (found : Primitive.ofName? name = some primitive) :
    primitive.signature.Related .uncounted Eq primitive.signature := by
  have noVariable : primitive.variables = 0 := by
    rw [← Expr.namesFor_primitive place found]
    exact Expr.Monomorphic.namesFor (List.forall_mem_singleton.mpr monomorphic)
  cases primitive with
  | arithmetic | comparison | connective | negation | newline => exact related_pure rfl
  | predicate | equality | display => cases noVariable

/-- Without operators that take values of any type a check runs alike from all counts. -/
def Likeness.monomorphic : RuleRelation Check Check (List String) :=
  (uncounted.scopedSteps uncounted_reflexive
      (fun node => node.isOperatorOf Expr.polymorphicNames = false)
      Check.related_signature_uncounted).rules
    Tally.free_inSequence
    (uncounted.scopedSteps_declares uncounted_reflexive Check.related_signature_uncounted)

/-- What runs alike from all counts comes to the same from every count. -/
theorem Check.success_constant {check : Check α} (related : check.Related .uncounted Eq check) :
    Constant check.success := by
  refine ⟨(check.success 0).map Prod.fst, fun count => ?_⟩
  obtain ⟨⟨nothing, nothingHere⟩, _, belong⟩ := related 0 count trivial
  unfold success
  generalize check 0 = outcome at nothing belong ⊢
  generalize check count = other at nothingHere belong ⊢
  obtain ⟨result, names, events⟩ := outcome
  obtain ⟨result', names', events'⟩ := other
  obtain rfl : names' = [] := nothingHere
  cases belong with
  | ok same => rw [same]; rfl
  | error => rfl

theorem Expr.success_monomorphic {expr : Expr} (monomorphic : Monomorphic expr.nodes)
    (context : Context) : Check.Constant (expr.infer context).success :=
  Check.success_constant
    (Likeness.monomorphic.relates_expr monomorphic 0 context context fun _ _ => rfl)

theorem success_values_monomorphic {bindings : List Binding}
    (monomorphic : ∀ binding ∈ bindings, Expr.Monomorphic binding.value.nodes) (whole : Expr)
    (context : Context) : Check.Constant (inferValuesIn Check bindings whole context).success := by
  induction bindings with
  | nil => exact Check.constant_pure ()
  | cons binding bindings ih =>
    obtain ⟨var, value⟩ := binding
    obtain ⟨ofValue, ofRest⟩ := List.forall_mem_cons.mp monomorphic
    rw [inferValuesIn, Check.success_bind]
    refine (Expr.success_monomorphic ofValue context).bind fun type => ?_
    simp only [Check.success_bind, Checking.lift, Check.success_demandCompatible]
    exact (Check.constant_guard _).bind fun _ => ih ofRest

/-! ## The two forms -/

/-- Operands are checked against the parameters of a lambda as values are against their types. -/
theorem success_operands (bindings : List Binding) (whole other : Expr) (context : Context) :
    (inferOperandsIn Check (bindings.map Binding.value)
      ((bindings.map Binding.var).map TypedVar.declared) whole context).success =
      (inferValuesIn Check bindings other context).success := by
  induction bindings with
  | nil => rfl
  | cons binding bindings ih =>
    obtain ⟨var, value⟩ := binding
    simp only [List.map_cons, Binding.var, Binding.value, inferOperandsIn, inferValuesIn,
      Checking.lift, Check.success_bind, Check.success_demandCompatible, ih]

/-- The application of a lambda succeeds when its body does, with a type that can stand for the
result, and then the values do. -/
theorem Expr.success_applied_lambda {bindings : List Binding} {result : Ascription}
    {body : List Expr} {context : Context} (whole : Expr) :
    ((application .origin (.lambda .origin (bindings.map Binding.var) result body)
      (bindings.map Binding.value)).infer context).success = (do
        let type ← (inferSequence body
          ((context.moveTo .origin).bindVars (bindings.map Binding.var))).success
        guard (type.compatible (Ty.ofAscription result) = true)
        (inferValuesIn Check bindings whole (context.moveTo .origin)).success
        return Ty.ofAscription result) := by
  have moved : (context.moveTo .origin).moveTo .origin = context.moveTo .origin := rfl
  simp only [success_application, success_lambda, moved, bind_assoc, pure_bind, signatureType,
    List.length_map, ↓reduceIte, success_operands bindings _ whole]

/-- A value that meets a condition gives way to another one. -/
theorem Check.guarded_iff {ended : StateT Nat Option α} {condition : α → Prop}
    [DecidablePred condition] {result : β} :
    (do let found ← ended; guard (condition found); return result) count = some (value, later) ↔
      value = result ∧ ∃ found, ended count = some (found, later) ∧ condition found := by
  have step : (do let found ← ended; guard (condition found); return result) count =
      (ended count).bind fun pair => if condition pair.1 then some (result, pair.2) else none := by
    change (ended count).bind _ = _
    congr 1
    funext pair
    by_cases holds : condition pair.1 <;> simp only [guard, holds, ↓reduceIte] <;> rfl
  rw [step, Option.bind_eq_some_iff]
  constructor
  · rintro ⟨⟨found, after⟩, here, ended⟩
    split at ended
    · cases ended
      exact ⟨rfl, found, here, ‹_›⟩
    · cases ended
  · rintro ⟨rfl, found, here, holds⟩
    exact ⟨(found, later), here, if_pos holds⟩

/-- A `let` whose values use no operator for values of any type, and the application of a lambda to
the values.  The application is accepted when the `let` is accepted with a type that can stand for
the declared result, which is then its type. -/
theorem let_accepted_as_application {bindings : List Binding} {body : List Expr}
    {result : Ascription} {binder applied : Expr}
    (monomorphic : ∀ binding ∈ bindings, Expr.Monomorphic binding.value.nodes)
    (isBinder : binder.unplaced = (Expr.letForm .origin bindings body).unplaced)
    (isApplied : applied.unplaced = (Expr.application .origin
      (.lambda .origin (bindings.map Binding.var) result body)
      (bindings.map Binding.value)).unplaced)
    (context : Context) (count : Nat) (type : Ty) :
    (applied.infer context count).result = .ok type ↔
      type = Ty.ofAscription result ∧
        ∃ found, (binder.infer context count).result = .ok found ∧
          found.compatible (Ty.ofAscription result) = true := by
  have constant := success_values_monomorphic monomorphic (.letForm .origin bindings body)
    (context.moveTo .origin)
  have same : (applied.infer context).success = (do
      let found ← (binder.infer context).success
      guard (found.compatible (Ty.ofAscription result) = true)
      return Ty.ofAscription result) := by
    rw [Expr.success_unplaced isBinder, Expr.success_unplaced isApplied,
      Expr.success_applied_lambda (.letForm .origin bindings body), Expr.success_letForm]
    simpa only [bind_assoc] using constant.first (do
      let type ← (inferSequence body
        ((context.moveTo .origin).bindVars (bindings.map Binding.var))).success
      guard (type.compatible (Ty.ofAscription result) = true))
      fun _ _ => pure (Ty.ofAscription result)
  simp only [Check.result_iff, same, Check.guarded_iff]
  constructor
  · rintro ⟨later, isResult, found, ended, holds⟩
    exact ⟨isResult, found, ⟨later, ended⟩, holds⟩
  · rintro ⟨isResult, found, ⟨later, ended⟩, holds⟩
    exact ⟨later, isResult, found, ended, holds⟩

/-- Of two variables with one name the second counts in both forms.  The `let` has a union as its
type and the application one of the alternatives, which the union can stand for. -/
theorem hidden_variable_accepted_as_application :
    let place : Range := ⟨3, 7⟩
    let bindings : List Binding := [.mk ⟨"x", .string place⟩ (.string place "s"),
      .mk ⟨"x", .boolean place⟩ (.application place (.primitive place "not")
        [.boolean place true])]
    let body : List Expr := [.conditional place (.identifier place "x") (.string place "s")
      (.identifier place "x")]
    let binder : Expr := .letForm place bindings body
    let applied : Expr := .application place (.lambda place (bindings.map Binding.var)
      (.string place) body) (bindings.map Binding.value)
    (∀ binding ∈ bindings, Expr.Monomorphic binding.value.nodes) ∧
      (binder.infer .empty 2).result = .ok (.union [.boolean, .string]) ∧
      Ty.compatible (.union [.boolean, .string]) .string = true ∧
      (applied.infer .empty 2).result = .ok .string := by
  intro place bindings body binder applied
  have monomorphic : ∀ binding ∈ bindings, Expr.Monomorphic binding.value.nodes := by
    refine List.forall_mem_cons.mpr ⟨?_, List.forall_mem_cons.mpr ⟨?_, nofun⟩⟩
    · exact List.forall_mem_cons.mpr ⟨rfl, nofun⟩
    · exact List.forall_mem_cons.mpr ⟨rfl, List.forall_mem_cons.mpr ⟨rfl,
        List.forall_mem_cons.mpr ⟨rfl, nofun⟩⟩⟩
  have found : (binder.infer .empty 2).result = .ok (.union [.boolean, .string]) := by
    decide +kernel
  have fits : Ty.compatible (.union [.boolean, .string]) .string = true := rfl
  have accepted := (let_accepted_as_application monomorphic
    (show binder.unplaced = (Expr.letForm .origin bindings body).unplaced from rfl)
    (show applied.unplaced = (Expr.application .origin (.lambda .origin _ (.string place) body)
      _).unplaced from rfl) .empty 2 .string).mpr ⟨rfl, _, found, fits⟩
  exact ⟨monomorphic, found, fits, accepted⟩

end TypedForms
