import TypedForms.Typing.Infer

/-! The typing rules as equations, one for each form that binds names.

The checker binds names to types by an operation that refuses lists of different
lengths.  Every form hands it lists that are equally long, so the rules can be
stated without it: each says in which context every part is checked.  The rules
hold in every computation that they can be carried out in, and in a plain check
the contexts are simply there.
-/
namespace TypedForms

open Checking (lift extending)

/-! ## Checks one after the other -/

namespace Check

/-- Two checks in a row end with the failure of the first, or with how the second ends. -/
theorem bind_elim {first : Check α} {next : α → Check β} {count : Nat}
    {motive : Outcome β → Prop}
    (failed : ∀ error created events, first count = ⟨.error error, created, events⟩ →
      motive ⟨.error error, created, events⟩)
    (went : ∀ value created events, first count = ⟨.ok value, created, events⟩ →
      motive ⟨(next value (count + created.length)).result,
        created ++ (next value (count + created.length)).created,
        events ++ (next value (count + created.length)).events⟩) :
    motive ((first >>= next) count) := by
  change motive (andThen first next count)
  match ended : first count with
  | ⟨.error error, created, events⟩ =>
    rw [andThen_error ended]
    exact failed error created events ended
  | ⟨.ok value, created, events⟩ =>
    rw [andThen_ok ended]
    exact went value created events ended

end Check

/-! ## Steps between the parts -/

namespace Context

/-- A demand logs the decisions about it, and then it is met or refused. -/
theorem demandCompatible_outcome (context : Context) (left right : Ty) (text : Unit → String)
    (count : Nat) :
    context.demandCompatible left right text count =
      ⟨if left.compatible right then .ok ()
        else .error ⟨.incompatible left right (text ()), context.range⟩, [],
        (left.decisions right).map .decided⟩ := by
  cases holds : left.compatible right <;>
    simp [demandCompatible, Check.compatible, holds, Bind.bind, Check.andThen, Check.log, Pure.pure,
      Check.done, fail, Check.fail]

theorem demandBoolean_outcome (context : Context) (type : Ty) (text : Unit → String)
    (count : Nat) :
    context.demandBoolean type text count =
      ⟨if type.compatible .boolean then .ok ()
        else .error ⟨.testNotBoolean type (text ()), context.range⟩, [],
        (type.decisions .boolean).map .decided⟩ := by
  cases holds : type.compatible .boolean <;>
    simp [demandBoolean, Check.compatible, holds, Bind.bind, Check.andThen, Check.log, Pure.pure,
      Check.done, fail, Check.fail]

/-- What is applied is a procedure with as many parameters as there are operands. -/
theorem demandProcedure_cases (context : Context) (type : Ty) (operands : Nat)
    (text : Unit → String) :
    (∃ params result, type = .proc params result ∧ params.length = operands ∧
      context.demandProcedure type operands text = pure (params, result)) ∨
    (∃ params result, type = .proc params result ∧ params.length ≠ operands ∧
      context.demandProcedure type operands text =
        context.fail (.arityMismatch params.length operands (text ()))) ∨
    (∀ params result, type ≠ .proc params result) ∧
      context.demandProcedure type operands text = context.fail (.nonProcedure type (text ())) := by
  cases type with
  | proc params result =>
    by_cases fits : params.length = operands
    · exact .inl ⟨params, result, rfl, fits, if_pos fits⟩
    · exact .inr (.inl ⟨params, result, rfl, fits, if_neg fits⟩)
  | _ => exact .inr (.inr ⟨nofun, rfl⟩)

end Context

/-! ## Primitive operators -/

/-- How many type variables an operator of the family gets at every use. -/
def Primitive.variables : Primitive → Nat
  | .predicate | .display => 1
  | .equality => 2
  | .arithmetic | .comparison | .connective | .negation | .newline => 0

/-- An operator that has a type takes the next names for its variables and logs nothing. -/
theorem Primitive.signature_outcome (primitive : Primitive) (count : Nat) :
    ∃ type, primitive.signature count =
      ⟨.ok type, (List.range' count primitive.variables).map generatedName, []⟩ := by
  cases primitive with
  | arithmetic | comparison | connective | negation | newline => exact ⟨_, rfl⟩
  | predicate | display | equality => exact ⟨_, rfl⟩

/-- A primitive without a type is refused, and the others get their types. -/
theorem Context.primitive_cases (context : Context) (name : String) :
    (∃ primitive, Primitive.ofName? name = some primitive ∧
      context.primitive name = primitive.signature) ∨
    Primitive.ofName? name = none ∧
      context.primitive name = context.fail (.unimplementedPrimitive name) := by
  unfold Context.primitive
  cases Primitive.ofName? name with
  | some primitive => exact .inl ⟨primitive, rfl, rfl⟩
  | none => exact .inr ⟨rfl, rfl⟩

/-! ## Binding names -/

namespace Context

theorem lookup_cases (context : Context) (name : String) :
    (∃ type, context.lookup? name = some type ∧ context.lookup name = pure type) ∨
    context.lookup? name = none ∧ context.lookup name = context.fail (.unboundVariable name) := by
  unfold Context.lookup
  cases context.lookup? name with
  | some type => exact .inl ⟨type, rfl, rfl⟩
  | none => exact .inr ⟨rfl, rfl⟩

/-- Binds variables to their declared types. -/
def bindVars (context : Context) (vars : List TypedVar) : Context :=
  context.extendPairs (vars.map fun var => (var.name, var.declared))

theorem extendAll_eq {context : Context} {names : List String} {types : List Ty}
    (same : names.length = types.length) :
    context.extendAll names types = pure (context.extendPairs (names.zip types)) := by
  simp [extendAll, same]

theorem extendAll_vars (context : Context) (vars : List TypedVar) :
    context.extendAll (vars.map TypedVar.name) (vars.map TypedVar.declared) =
      pure (context.bindVars vars) := by
  rw [extendAll_eq (by simp), bindVars, List.zip_map']

/-- When the types are those of variables, their names are bound. -/
theorem bindingIn_vars {m : Type → Type} [Checking m] (context : Context) (vars : List TypedVar)
    (next : Context → m α) :
    context.bindingIn m (vars.map TypedVar.name) (vars.map TypedVar.declared) next =
      extending (pure (context.bindVars vars)) >>= next := by
  rw [bindingIn, extendAll_vars]

/-- All names in scope are bound to types that meet the condition. -/
def Binds (holds : Ty → Prop) (context : Context) : Prop :=
  ∀ binding ∈ context.bindings, holds binding.2

section Binds

variable {holds : Ty → Prop} {context : Context}

theorem Binds.extendPairs (binds : context.Binds holds) (pairs : ∀ pair ∈ list, holds pair.2) :
    (context.extendPairs list).Binds holds := by
  intro binding member
  rcases List.mem_append.mp member with member | member
  · exact pairs binding (List.mem_reverse.mp member)
  · exact binds binding member

theorem Binds.lookup (binds : context.Binds holds) (found : context.lookup? name = some type) :
    holds type := by
  obtain ⟨before, after, bindings, _⟩ := List.lookup_eq_some_iff.mp found
  exact binds (name, type) (by simp [bindings])

end Binds

end Context

namespace Binding

/-- The name of a binding and the type that its lambda declares. -/
def recursive? (binding : Binding) : Option (String × Ty) :=
  binding.signature?.map fun signature => (binding.var.name, signature.1)

/-- When all values are lambdas, each name meets the type of its own lambda. -/
theorem zip_signatures {bindings : List Binding}
    (lambdas : ∀ binding ∈ bindings, binding.signature?.isSome = true) :
    (bindings.map fun binding => binding.var.name).length =
        ((bindings.filterMap signature?).map Prod.fst).length ∧
      (bindings.map fun binding => binding.var.name).zip
        ((bindings.filterMap signature?).map Prod.fst) = bindings.filterMap recursive? := by
  induction bindings with
  | nil => exact ⟨rfl, rfl⟩
  | cons binding bindings ih =>
    obtain ⟨first, later⟩ := List.forall_mem_cons.mp lambdas
    obtain ⟨signature, found⟩ := Option.isSome_iff_exists.mp first
    obtain ⟨sameLength, samePairs⟩ := ih later
    simp only [List.filterMap_cons, found, recursive?, Option.map_some, List.map_cons,
      List.zip_cons_cons, List.length_cons, samePairs, sameLength, and_self]

theorem map_fst_recursive {bindings : List Binding}
    (lambdas : ∀ binding ∈ bindings, binding.signature?.isSome = true) :
    (bindings.filterMap recursive?).map Prod.fst =
      bindings.map fun binding => binding.var.name := by
  obtain ⟨sameLength, samePairs⟩ := zip_signatures lambdas
  rw [← samePairs, List.map_fst_zip (Nat.le_of_eq sameLength)]

end Binding

/-! ## The rules -/

theorem Expr.letrec_refused_or_lambdas (bindings : List Binding) :
    (∃ binding, bindings.find? (fun binding => binding.signature?.isNone) = some binding) ∨
      ∀ binding ∈ bindings, binding.signature?.isSome = true := by
  cases found : bindings.find? fun binding => binding.signature?.isNone with
  | some binding => exact .inl ⟨binding, rfl⟩
  | none =>
    refine .inr fun binding member => ?_
    simpa [Option.isSome_iff_ne_none] using List.find?_eq_none.mp found binding member

/-- The binding that a definition makes for what follows it in its sequence. -/
def Expr.definition : Expr → List (String × Ty)
  | .define _ var _ => [(var.name, var.declared)]
  | _ => []

/-- Between two expressions of a sequence the definition is logged and takes effect. -/
theorem Context.declare_eq (context : Context) (expr : Expr) :
    context.declare expr = (do
      Check.log (expr.definition.map fun pair => .defined pair.1 pair.2)
      return context.extendPairs expr.definition) := by
  cases expr <;> rfl

section Rules

variable {m : Type → Type} [Checking m] {place : Range} {body : List Expr}
  {bindings : List Binding} {outer : Context}

theorem Expr.inferIn_lambda {params : List TypedVar} {result : Ascription} :
    (lambda place params result body).inferIn m outer = (do
      lift (Check.log [.typing (.lambda place params result body)])
      let bodyType ← extending (pure ((outer.moveTo place).bindVars params)) >>=
        inferSequenceIn m body
      lift ((outer.moveTo place).demandCompatible bodyType (Ty.ofAscription result) fun _ =>
        (lambda place params result body).text)
      return signatureType params result) := by
  simp only [Expr.inferIn, Expr.range, Context.bindingIn_vars]

theorem Expr.inferIn_letForm :
    (letForm place bindings body).inferIn m outer = (do
      lift (Check.log [.typing (.letForm place bindings body)])
      inferValuesIn m bindings (.letForm place bindings body) (outer.moveTo place)
      extending (pure ((outer.moveTo place).bindVars (bindings.map Binding.var))) >>=
        inferSequenceIn m body) := by
  have vars := (outer.moveTo place).bindingIn_vars (bindings.map Binding.var)
    (inferSequenceIn m body)
  rw [List.map_map, List.map_map] at vars
  simp only [Expr.inferIn, Expr.range]
  congr 1
  funext _
  congr 1
  funext _
  exact vars

/-- A `letrec` is refused at the first value that is no lambda. -/
theorem Expr.inferIn_letrecForm_refused {binding : Binding}
    (found : bindings.find? (fun binding => binding.signature?.isNone) = some binding) :
    (letrecForm place bindings body).inferIn m outer = (do
      lift (Check.log [.typing (.letrecForm place bindings body)])
      lift (((outer.moveTo place).moveTo binding.value.range).fail
        (.letrecNonProcedure (letrecForm place bindings body).text))) := by
  simp only [Expr.inferIn, Expr.range, found]

/-- The names of a `letrec` are bound to the types of their lambdas, in the lambdas as well. -/
theorem Expr.inferIn_letrecForm
    (lambdas : ∀ binding ∈ bindings, binding.signature?.isSome = true) :
    (letrecForm place bindings body).inferIn m outer = (do
      lift (Check.log [.typing (.letrecForm place bindings body)])
      let inner ← extending
        (pure ((outer.moveTo place).extendPairs (bindings.filterMap Binding.recursive?)))
      let bodyTypes ← inferBodiesIn m bindings inner
      inner.demandResultsIn m (.letrecForm place bindings body)
        (bodyTypes.zip ((bindings.filterMap Binding.signature?).map Prod.snd))
      inferSequenceIn m body inner) := by
  have accepted : bindings.find? (fun binding => binding.signature?.isNone) = none :=
    List.find?_eq_none.mpr fun binding member => by
      simpa [Option.isSome_iff_ne_none] using lambdas binding member
  obtain ⟨sameLength, samePairs⟩ := Binding.zip_signatures lambdas
  simp only [Expr.inferIn, Expr.range, accepted, Context.bindingIn,
    Context.extendAll_eq sameLength, samePairs]

theorem inferBodiesIn_lambda {var : TypedVar} {params : List TypedVar} {result : Ascription} :
    inferBodiesIn m (.mk var (.lambda place params result body) :: bindings) outer = (do
      let type ← extending (pure (outer.bindVars params)) >>= inferSequenceIn m body
      let types ← inferBodiesIn m bindings outer
      return type :: types) := by
  simp only [inferBodiesIn, Context.bindingIn_vars]

end Rules

/-! ## The rules of a plain check -/

section Plain

variable {place : Range} {body : List Expr} {bindings : List Binding} {outer : Context}

theorem Expr.infer_lambda {params : List TypedVar} {result : Ascription} :
    (lambda place params result body).infer outer = (do
      Check.log [.typing (.lambda place params result body)]
      let bodyType ← inferSequence body ((outer.moveTo place).bindVars params)
      (outer.moveTo place).demandCompatible bodyType (Ty.ofAscription result) fun _ =>
        (lambda place params result body).text
      return signatureType params result) := by
  simp only [Expr.infer, inferIn_lambda, lift, extending, pure_bind]

theorem Expr.infer_letForm :
    (letForm place bindings body).infer outer = (do
      Check.log [.typing (.letForm place bindings body)]
      inferValuesIn Check bindings (.letForm place bindings body) (outer.moveTo place)
      inferSequence body ((outer.moveTo place).bindVars (bindings.map Binding.var))) := by
  simp only [Expr.infer, inferIn_letForm, lift, extending, pure_bind]

theorem Expr.infer_letrecForm
    (lambdas : ∀ binding ∈ bindings, binding.signature?.isSome = true) :
    (letrecForm place bindings body).infer outer = (do
      Check.log [.typing (.letrecForm place bindings body)]
      let inner := (outer.moveTo place).extendPairs (bindings.filterMap Binding.recursive?)
      let bodyTypes ← inferBodiesIn Check bindings inner
      inner.demandResultsIn Check (.letrecForm place bindings body)
        (bodyTypes.zip ((bindings.filterMap Binding.signature?).map Prod.snd))
      inferSequence body inner) := by
  simp only [Expr.infer, inferIn_letrecForm lambdas, lift, extending, pure_bind]

theorem inferBodies_lambda {var : TypedVar} {params : List TypedVar} {result : Ascription} :
    inferBodiesIn Check (.mk var (.lambda place params result body) :: bindings) outer = (do
      let type ← inferSequence body (outer.bindVars params)
      let types ← inferBodiesIn Check bindings outer
      return type :: types) := by
  simp only [inferBodiesIn_lambda, extending, pure_bind]

theorem inferSequence_cons {expr next : Expr} {rest : List Expr} :
    inferSequence (expr :: next :: rest) outer = (do
      let _ ← expr.infer outer
      Check.log (expr.definition.map fun pair => .defined pair.1 pair.2)
      inferSequence (next :: rest) (outer.extendPairs expr.definition)) := by
  simp only [inferSequence, inferSequenceIn, Context.declare_eq, extending, bind_assoc, pure_bind]

end Plain

end TypedForms
