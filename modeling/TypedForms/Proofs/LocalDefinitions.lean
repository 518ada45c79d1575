import TypedForms.Proofs.SuccessfulChecks

/-! Recursive bindings as local definitions.

A `letrec` binds all its names first, checks all bodies and then all results.  A
row of definitions binds one name after the other, and each lambda is compared
with its result and with the declared type at once.  When no lambda uses a name
that is bound after its own, it does not notice the difference: the two succeed
alike.
-/
namespace TypedForms

namespace Binding

/-- The type that the signature of the bound lambda declares. -/
def lambdaType? (binding : Binding) : Option Ty :=
  binding.signature?.map Prod.fst

/-- The definition of the bound name, with another type ascribed to it. -/
def asDefinition (binding : Binding) (type : Ascription) : Expr :=
  .define .origin ⟨binding.var.name, type⟩ binding.value

theorem lambdas_of_lowered {bindings : List Binding} {types : List Ascription}
    (lowered : bindings.map lambdaType? = types.map fun type => some (Ty.ofAscription type)) :
    ∀ binding ∈ bindings, binding.signature?.isSome = true := by
  intro binding listed
  have found := List.mem_map_of_mem (f := lambdaType?) listed
  rw [lowered] at found
  obtain ⟨type, _, same⟩ := List.mem_map.mp found
  obtain ⟨signature, isSome, _⟩ := Option.map_eq_some_iff.mp same.symm
  simp [isSome]

end Binding

theorem Context.extendPairs_cons (context : Context) (pair : String × Ty)
    (pairs : List (String × Ty)) :
    context.extendPairs (pair :: pairs) = (context.extendPairs [pair]).extendPairs pairs := by
  simp [extendPairs]

/-- The definition of a lambda by its own type succeeds when the body succeeds with a type that can
stand for the result. -/
theorem Expr.success_define_lambda {place own : Range} {name : String} {type result : Ascription}
    {params : List TypedVar} {body : List Expr} {context : Context}
    (lowered : Ty.ofAscription type = signatureType params result) :
    ((define place ⟨name, type⟩ (.lambda own params result body)).infer context).success = (do
      let bodyType ← (inferSequence body
        ((context.extendPairs [(name, signatureType params result)]).bindVars params)).success
      guard (bodyType.compatible (Ty.ofAscription result) = true)
      return .void) := by
  have declared : TypedVar.declared ⟨name, type⟩ = signatureType params result := lowered
  have placed : (inferSequence body
      ((((context.moveTo place).extend name (signatureType params result)).moveTo own).bindVars
        params)).success =
      (inferSequence body
        ((context.extendPairs [(name, signatureType params result)]).bindVars params)).success :=
    success_agree fun _ _ => rfl
  simp only [success_define, success_lambda, declared, placed, bind_assoc, pure_bind,
    Ty.compatible_refl, guard_true]

/-- The parameters of a lambda and the names bound before it decide what its body comes to. -/
theorem success_body_before {place : Range} {params : List TypedVar} {result : Ascription}
    {body : List Expr} {inner outer : Context} {later : List (String × Ty)}
    (agree : ∀ name, inner.lookup? name = (outer.extendPairs later).lookup? name)
    (unused : ∀ name ∈ later.map Prod.fst, name ∉ (Expr.lambda place params result body).free) :
    (inferSequence body (inner.bindVars params)).success =
      (inferSequence body (outer.bindVars params)).success := by
  refine success_agree (Context.AgreeOn.extendPairs ?_)
  rw [TypedVar.map_fst_declared]
  intro name free
  rw [agree, Context.lookup_outer fun bound => unused name bound free]

/-- A row of definitions succeeds as checking the lambdas, comparing them with their results and
checking what follows does where all names are bound. -/
theorem success_definitions {bindings : List Binding} {types : List Ascription} {body : List Expr}
    (lowered : bindings.map Binding.lambdaType? =
      types.map fun type => some (Ty.ofAscription type))
    (backward : bindings.Pairwise fun earlier later => later.var.name ∉ earlier.value.free)
    (nonempty : body ≠ []) (whole : Expr) {inner outer : Context}
    (agree : ∀ name, inner.lookup? name =
      (outer.extendPairs (bindings.filterMap Binding.recursive?)).lookup? name) :
    (inferSequence (List.zipWith Binding.asDefinition bindings types ++ body) outer).success = (do
      let bodyTypes ← (inferBodiesIn Check bindings inner).success
      (inner.demandResultsIn Check whole
        (bodyTypes.zip ((bindings.filterMap Binding.signature?).map Prod.snd))).success
      (inferSequence body inner).success) := by
  induction bindings generalizing types outer with
  | nil =>
    have same : (inferSequence body outer).success = (inferSequence body inner).success :=
      success_agree fun name _ => (agree name).symm
    simpa [inferBodiesIn, Context.demandResultsIn] using same
  | cons binding bindings ih =>
    obtain ⟨type, types, rfl, isType, laterLowered⟩ := List.map_eq_cons_iff.mp lowered.symm
    obtain ⟨unused, laterBackward⟩ := List.pairwise_cons.mp backward
    have laterLambdas := Binding.lambdas_of_lowered laterLowered.symm
    obtain ⟨var, value⟩ := binding
    cases value with
    | lambda place params result lambdaBody =>
      have sameType : Ty.ofAscription type = signatureType params result := Option.some.inj isType
      have laterAgree : ∀ name, inner.lookup? name =
          ((outer.extendPairs [(var.name, signatureType params result)]).extendPairs
            (bindings.filterMap Binding.recursive?)).lookup? name := by
        intro name
        rw [← Context.extendPairs_cons]
        exact agree name
      have names : ∀ name ∈ (bindings.filterMap Binding.recursive?).map Prod.fst,
          name ∉ (Expr.lambda place params result lambdaBody).free := by
        rw [Binding.map_fst_recursive laterLambdas]
        exact List.forall_mem_map.mpr unused
      have before := success_body_before laterAgree names
      have more : List.zipWith Binding.asDefinition bindings types ++ body ≠ [] := by
        simp [nonempty]
      have defined : (Expr.define .origin ⟨var.name, type⟩
          (.lambda place params result lambdaBody)).definition =
            [(var.name, signatureType params result)] :=
        congrArg (fun declared => [(var.name, declared)]) sameType
      have results : (Binding.mk var (.lambda place params result lambdaBody) ::
          bindings).filterMap Binding.signature? =
            (signatureType params result, Ty.ofAscription result) ::
              bindings.filterMap Binding.signature? := rfl
      rw [List.zipWith_cons_cons, List.cons_append, success_sequence more, Binding.asDefinition,
        Binding.var, Binding.value, Expr.success_define_lambda sameType, defined,
        ih laterLowered.symm laterBackward laterAgree, inferBodies_lambda, results]
      simp only [Check.success_bind, Check.success_pure, bind_assoc, pure_bind, List.map_cons,
        List.zip_cons_cons, Context.demandResultsIn, Checking.lift,
        Check.success_demandCompatible, before]
      congr 1
      funext bodyType
      exact ((Check.constant_guard _).first _ _).symm
    | _ => cases isType

/-- A `letrec` in which no lambda uses a name bound after its own, and definitions of the same
lambdas by types that denote those of their signatures.  From the same count of names both are
refused or both have the same type and leave the same count.  What the `letrec` ascribes to its
names does not matter, and the names need not be different. -/
theorem letrec_succeeds_as_definitions {bindings : List Binding} {types : List Ascription}
    {body : List Expr} {recursive sequential : Expr}
    (lowered : bindings.map Binding.lambdaType? =
      types.map fun type => some (Ty.ofAscription type))
    (backward : bindings.Pairwise fun earlier later => later.var.name ∉ earlier.value.free)
    (nonempty : body ≠ [])
    (isRecursive : recursive.unplaced = (Expr.letrecForm .origin bindings body).unplaced)
    (isSequential : sequential.unplaced = (Expr.letForm .origin []
      (List.zipWith Binding.asDefinition bindings types ++ body)).unplaced)
    (context : Context) (count : Nat) :
    (recursive.infer context).success count = (sequential.infer context).success count := by
  rw [Expr.success_unplaced isRecursive, Expr.success_unplaced isSequential,
    Expr.infer_letrecForm (Binding.lambdas_of_lowered lowered), Expr.success_letForm]
  simp only [inferValuesIn, Check.success_bind, Check.success_log, Check.success_pure, pure_bind]
  rw [success_definitions lowered backward nonempty (.letrecForm .origin bindings body)]
  exact fun name => rfl

/-- The second lambda uses the first and creates a name.  The types ascribed to the names of the
`letrec` are not looked at. -/
theorem backward_lambdas_succeed_as_definitions :
    let place : Range := ⟨3, 7⟩
    let first : Expr := .lambda place [⟨"n", .number place⟩] (.boolean place)
      [.application place (.identifier place "f") [.identifier place "n"]]
    let second : Expr := .lambda place [] (.boolean place)
      [.primitive place "number?",
        .application place (.identifier place "f") [.identifier place "m"]]
    let bindings : List Binding := [.mk ⟨"f", .string place⟩ first, .mk ⟨"g", .void place⟩ second]
    let types : List Ascription := [.proc place [.number place] (.boolean place),
      .proc place [] (.union place [.boolean place, .boolean place])]
    let body : List Expr := [.identifier place "g"]
    let recursive : Expr := .letrecForm place bindings body
    let sequential : Expr := .letForm place []
      (List.zipWith Binding.asDefinition bindings types ++ body)
    let context := Context.empty.extend "m" .number
    bindings.map Binding.lambdaType? = types.map (fun type => some (Ty.ofAscription type)) ∧
      bindings.Pairwise (fun earlier later => later.var.name ∉ earlier.value.free) ∧
      (recursive.infer context).success 5 = some (.proc [] .boolean, 6) ∧
      (sequential.infer context).success 5 = some (.proc [] .boolean, 6) := by
  intro place first second bindings types body recursive sequential context
  have lowered : bindings.map Binding.lambdaType? =
      types.map fun type => some (Ty.ofAscription type) := by decide
  have backward : bindings.Pairwise fun earlier later => later.var.name ∉ earlier.value.free := by
    decide
  have accepted : (recursive.infer context).success 5 = some (.proc [] .boolean, 6) := by
    decide +kernel
  have alike := letrec_succeeds_as_definitions lowered backward (List.cons_ne_nil _ _)
    (show recursive.unplaced = (Expr.letrecForm .origin bindings body).unplaced from rfl)
    (show sequential.unplaced = (Expr.letForm .origin [] _).unplaced from rfl) context 5
  exact ⟨lowered, backward, accepted, alike.symm.trans accepted⟩

end TypedForms
