import TypedForms.Proofs.CheckAccounts
import TypedForms.Proofs.RelatedChecks

/-! Scopes are lexical.

The free identifiers of an expression are read off its text.  They are all that a
check needs to know of its context: contexts that agree on them lead to the same
outcome.  A check that succeeds has found every one of them, and a variable that
a check misses is one of them.
-/
namespace TypedForms

/-! ## Free identifiers -/

/-- The names that an expression makes visible to what follows it in a sequence. -/
def Expr.definedNames : Expr → List String
  | .define _ var _ => [var.name]
  | _ => []

mutual

/-- The free identifiers of an expression.  Primitive operators are never among them.  The names of
a `let` are bound in its body only, those of a `letrec` in the values as well. -/
def Expr.free : Expr → List String
  | .identifier _ name => [name]
  | .conditional _ test thenBranch elseBranch =>
    test.free ++ (thenBranch.free ++ elseBranch.free)
  | .lambda _ params _ body => (freeSequence body).removeAll (params.map TypedVar.name)
  | .application _ operator operands => operator.free ++ freeOperands operands
  | .letForm _ bindings body =>
    freeValues bindings ++
      (freeSequence body).removeAll (bindings.map fun binding => binding.var.name)
  | .letrecForm _ bindings body =>
    (freeValues bindings ++ freeSequence body).removeAll
      (bindings.map fun binding => binding.var.name)
  | .define _ var value => value.free.removeAll [var.name]
  | .number .. | .boolean .. | .string .. | .primitive .. => []

/-- The free identifiers of a sequence: a definition binds its name in what follows it. -/
def freeSequence : List Expr → List String
  | [] => []
  | expr :: rest => expr.free ++ (freeSequence rest).removeAll expr.definedNames

/-- The free identifiers of operands, none of which is in the scope of another. -/
def freeOperands : List Expr → List String
  | [] => []
  | operand :: rest => operand.free ++ freeOperands rest

/-- The free identifiers of the values of bindings. -/
def freeValues : List Binding → List String
  | [] => []
  | .mk _ value :: rest => value.free ++ freeValues rest

end

theorem Expr.map_fst_definition (expr : Expr) :
    expr.definition.map Prod.fst = expr.definedNames := by
  cases expr <;> rfl

theorem mem_removeAll {list names : List String} :
    name ∈ list.removeAll names ↔ name ∈ list ∧ name ∉ names := by
  simp [List.removeAll]

/-- Free identifiers, added up: a scope takes away the names that it binds. -/
def Tally.free : Tally (List String) where
  none := []
  add := (· ++ ·)
  enter _ inside := inside
  within names inside := inside.removeAll names
  identifier name := [name]
  primitive _ := []
  expr := Expr.free
  sequence := freeSequence
  operands := freeOperands
  values := freeValues
  bodies := freeValues

theorem Tally.free_lawful : free.Lawful where
  none_add _ := rfl
  add_none := List.append_nil
  expr tree := by cases tree <;> rfl
  sequence last := List.append_nil last.free
  operands_nil := rfl
  operands_cons _ _ := rfl
  values_nil := rfl
  values_cons _ _ _ := rfl
  bodies_nil := rfl
  bodies_cons _ _ _ _ _ _ := rfl

theorem Tally.free_inSequence : free.InSequence := by
  intro expr next rest
  rw [expr.map_fst_definition]
  rfl

/-! ## Looking names up -/

namespace Context

variable {context left right : Context} {pairs : List (String × Ty)} {names : List String}

theorem lookup_inner (bound : name ∈ pairs.map Prod.fst) (context : Context) :
    (context.extendPairs pairs).lookup? name = pairs.reverse.lookup name ∧
      (pairs.reverse.lookup name).isSome = true := by
  obtain ⟨pair, member, rfl⟩ := List.mem_map.mp bound
  have found : (pairs.reverse.lookup pair.1).isSome = true :=
    List.lookup_isSome_iff.mpr ⟨pair, List.mem_reverse.mpr member, by simp⟩
  refine ⟨?_, found⟩
  rw [lookup?, extendPairs, List.lookup_append, Option.or_of_isSome found]

theorem lookup_outer (unbound : name ∉ pairs.map Prod.fst) (context : Context) :
    (context.extendPairs pairs).lookup? name = context.lookup? name := by
  have missed : pairs.reverse.lookup name = none := by
    refine List.lookup_eq_none_iff.mpr fun pair member => ?_
    have listed := List.mem_map_of_mem (f := Prod.fst) (List.mem_reverse.mp member)
    simpa using fun same : name = pair.1 => unbound (same ▸ listed)
  rw [lookup?, extendPairs, List.lookup_append, missed, Option.none_or, ← lookup?]

/-- The contexts give each of the names the same type, or none. -/
def AgreeOn (names : List String) (left right : Context) : Prop :=
  ∀ name ∈ names, left.lookup? name = right.lookup? name

theorem AgreeOn.front (agree : AgreeOn (first ++ second) left right) : AgreeOn first left right :=
  fun name member => agree name (List.mem_append_left _ member)

theorem AgreeOn.back (agree : AgreeOn (first ++ second) left right) : AgreeOn second left right :=
  fun name member => agree name (List.mem_append_right _ member)

/-- Names that are bound in both contexts alike need not be agreed on before. -/
theorem AgreeOn.extendPairs (agree : AgreeOn (names.removeAll (pairs.map Prod.fst)) left right) :
    AgreeOn names (left.extendPairs pairs) (right.extendPairs pairs) := by
  intro name member
  by_cases bound : name ∈ pairs.map Prod.fst
  · rw [(lookup_inner bound left).1, (lookup_inner bound right).1]
  · rw [lookup_outer bound, lookup_outer bound]
    exact agree name (mem_removeAll.mpr ⟨member, bound⟩)

end Context

open Context (AgreeOn)

/-! ## Contexts that agree -/

/-- Whatever is the same is alike. -/
structure Likeness.Reflexive (likeness : Likeness) : Prop where
  events : ∀ entries, likeness.events.Rel entries entries
  errors : ∀ error, likeness.errors error error

open Check

/-- Where contexts agree on the free identifiers the steps run alike, if operators do. -/
def Likeness.scopedSteps (likeness : Likeness) (reflexive : likeness.Reflexive)
    (Good : Expr → Prop)
    (signatures : ∀ {place name primitive}, Good (.primitive place name) →
      Primitive.ofName? name = some primitive →
      primitive.signature.Related likeness Eq primitive.signature) :
    StepRelation Check Check (List String) where
  trees := .same Good
  types := .same
  tally := .free
  lawful := Tally.free_lawful
  Rel now names context other values left right :=
    AgreeOn names context other → left.Related likeness (values now) right
  ascribed _ _ := rfl
  pure value _ := related_pure value
  bind first next agree :=
    related_bind (first agree.front) fun _ _ value => next _ _ _ (Nat.le_refl _) value agree.back
  enter node next agree := by
    obtain ⟨_, rfl⟩ := node
    exact related_log (reflexive.events _) (next agree)
  within bound next agree := by
    obtain rfl := TypePairing.eq_of_bound bound
    exact next agree.extendPairs
  primitive node placed _ _ := by
    obtain ⟨good, rfl⟩ := node
    exact related_primitive (fun _ found => signatures good found) (placed ▸ reflexive.errors _)
  lookup {_ _ context other name _} node placed _ agree := by
    obtain ⟨_, rfl⟩ := node
    refine related_lookup ?_ (placed ▸ reflexive.errors _)
    rw [agree name (List.mem_singleton_self name)]
    cases other.lookup? name with
    | some type => exact .some rfl
    | none => exact .none
  boolean node test computed _ := by
    obtain ⟨_, rfl⟩ := node
    obtain ⟨_, rfl⟩ := test
    obtain rfl := computed
    exact related_demand (Context.demandBoolean_outcome _ _ _) (Context.demandBoolean_outcome _ _ _)
      rfl (reflexive.events _) (reflexive.errors _) trivial
  applied {_ _ context other _ operands _ type _} node placed computed _ := by
    obtain ⟨_, rfl⟩ := node
    obtain rfl := computed
    refine related_procedure (fun params result isProc => ⟨params, result, isProc, rfl, ?_⟩) id
      (fun _ => placed ▸ reflexive.errors _) (placed ▸ reflexive.errors _)
    exact fun fits => ⟨fits, List.forall₂_same.mpr fun _ _ => rfl, rfl⟩
  compared {_ context other _ _ _ _ _ _} node placed placed' comparable _ := by
    obtain ⟨_, rfl⟩ := node
    obtain ⟨⟨_, _, rfl⟩, _, _, rfl⟩ := comparable.both
    refine related_demand (Context.demandCompatible_outcome _ _ _ _)
      (Context.demandCompatible_outcome _ _ _ _) rfl (reflexive.events _) ?_ trivial
    rw [placed, placed']
    exact reflexive.errors _
  empty node placed placed' _ _ _ := by
    obtain ⟨_, rfl⟩ := node
    refine related_fail ?_
    rw [placed, placed']
    exact reflexive.errors _
  refused node _ _ _ _ := by
    obtain ⟨_, rfl⟩ := node
    exact related_fail (reflexive.errors _)

/-- Definitions are made in both contexts, so what follows them agrees on more names. -/
theorem Likeness.scopedSteps_declares (likeness : Likeness) (reflexive : likeness.Reflexive)
    {Good : Expr → Prop}
    (signatures : ∀ {place name primitive}, Good (.primitive place name) →
      Primitive.ofName? name = some primitive →
      primitive.signature.Related likeness Eq primitive.signature) :
    (likeness.scopedSteps reflexive Good signatures).Declares := by
  intro _ _ context other _ expr copy _ _ bound next agree
  have same := TypePairing.eq_of_bound bound
  refine related_declare ?_ (next ?_)
  · rw [same]
    exact reflexive.events _
  · rw [← same]
    exact agree.extendPairs

/-- Everything is the same. -/
def Likeness.exact : Likeness where
  counts := Eq
  created := .same
  events := .same
  errors := Eq
  later counts names := by rw [counts, names]

theorem Likeness.exact_reflexive : exact.Reflexive :=
  ⟨fun _ => rfl, fun _ => rfl⟩

/-- Checks that are exactly alike are the same. -/
theorem Check.eq_of_related {left right : Check α} (related : left.Related .exact Eq right) :
    left = right := by
  funext count
  obtain ⟨names, entries, results⟩ := related count count rfl
  generalize left count = outcome at names entries results ⊢
  generalize right count = other at names entries results ⊢
  obtain ⟨result, created, events⟩ := outcome
  obtain ⟨result', created', events'⟩ := other
  obtain rfl : created = created' := names
  obtain rfl : events = events' := entries
  cases results with
  | ok same => rw [same]
  | error same => rw [show _ = _ from same]

theorem Check.related_self (check : Check α) : check.Related .exact Eq check := by
  rintro count _ rfl
  refine ⟨rfl, rfl, ?_⟩
  cases (check count).result with
  | ok value => exact .ok rfl
  | error error => exact .error rfl

/-- In contexts that agree on the free identifiers the steps are the same. -/
def Likeness.exactSteps : StepRelation Check Check (List String) :=
  exact.scopedSteps exact_reflexive (fun _ => True) fun _ _ => related_self _

theorem Likeness.exactSteps_declares : exactSteps.Declares :=
  exact.scopedSteps_declares exact_reflexive fun _ _ => related_self _

/-- Contexts that agree on the free identifiers of a tree lead to the same outcome. -/
def Likeness.agreeing : RuleRelation Check Check (List String) :=
  exactSteps.rules Tally.free_inSequence exactSteps_declares

theorem Expr.infer_agree (expr : Expr) {left right : Context}
    (agree : AgreeOn expr.free left right) : expr.infer left = expr.infer right :=
  eq_of_related
    (Likeness.agreeing.relates_expr (fun _ _ => trivial) 0 left right agree)

theorem inferSequence_agree (exprs : List Expr) {left right : Context}
    (agree : AgreeOn (freeSequence exprs) left right)
    (placed : exprs = [] → left.range = right.range) :
    inferSequence exprs left = inferSequence exprs right := by
  have related := Likeness.agreeing.relates_exprs (fun _ _ _ _ => trivial) 0 left right
    fun empty _ => related_fail (congrArg (TypeError.mk _) (placed empty))
  rw [show exprs.map Likeness.agreeing.trees.expr = exprs from List.map_id exprs] at related
  exact eq_of_related (related agree)

/-! ## Names that are found or missed -/

/-- A success has found all the names in the context, and a variable that was missed is one of the
names and not in the context. -/
structure Outcome.Resolves (names : List String) (context : Context) (outcome : Outcome α) :
    Prop where
  bound : ∀ value, outcome.result = .ok value → ∀ name ∈ names, (context.lookup? name).isSome = true
  missed : ∀ name place, outcome.result = .error ⟨.unboundVariable name, place⟩ →
    name ∈ names ∧ context.lookup? name = none

/-- Outside a scope only the names that it does not bind matter. -/
theorem Outcome.Resolves.within {pairs : List (String × Ty)} {outcome : Outcome α}
    {names : List String} {context : Context}
    (resolves : outcome.Resolves names (context.extendPairs pairs)) :
    outcome.Resolves (names.removeAll (pairs.map Prod.fst)) context := by
  refine ⟨fun value same name member => ?_, fun name place same => ?_⟩
  · obtain ⟨listed, outside⟩ := mem_removeAll.mp member
    rw [← Context.lookup_outer outside]
    exact resolves.bound value same name listed
  · obtain ⟨listed, unbound⟩ := resolves.missed name place same
    have outside : name ∉ pairs.map Prod.fst := by
      intro inside
      obtain ⟨found, isSome⟩ := Context.lookup_inner inside context
      rw [← found, unbound] at isSome
      cases isSome
    rw [Context.lookup_outer outside] at unbound
    exact ⟨mem_removeAll.mpr ⟨listed, outside⟩, unbound⟩

/-- Every check looks up the free identifiers of its tree and no other names. -/
def Account.scope : Account (List String) where
  tally := .free
  lawful := Tally.free_lawful
  Holds names context _ outcome := outcome.Resolves names context
  done _ := ⟨nofun, nofun⟩
  refused _ other := ⟨nofun, fun name _ same => by cases same; exact absurd rfl (other name)⟩
  failed resolves := by
    refine ⟨nofun, fun name place same => ?_⟩
    obtain ⟨member, unbound⟩ := resolves.missed name place (by cases same; rfl)
    exact ⟨List.mem_append_left _ member, unbound⟩
  went first second := by
    refine ⟨fun result same => ?_, fun name place same => ?_⟩
    · exact List.forall_mem_append.mpr ⟨first.bound _ rfl, second.bound result same⟩
    · obtain ⟨member, unbound⟩ := second.missed name place same
      exact ⟨List.mem_append_right _ member, unbound⟩
  enter resolves := ⟨resolves.bound, resolves.missed⟩
  within resolves := resolves.within
  primitive _ := ⟨nofun, nofun⟩
  found found := ⟨fun _ _ => List.forall_mem_singleton.mpr (by simp [found]), nofun⟩
  missed missed := by
    refine ⟨nofun, fun _ _ same => ?_⟩
    cases same
    exact ⟨List.mem_singleton_self _, missed⟩

theorem Account.scope_sequential : scope.Sequential where
  adds := Tally.free_inSequence
  announced _ resolves := Outcome.Resolves.mk resolves.bound resolves.missed

theorem Expr.infer_resolves (expr : Expr) (outer : Context) (count : Nat) :
    (expr.infer outer count).Resolves expr.free outer :=
  Account.of_expr Account.scope_sequential expr outer count

theorem inferSequence_resolves (exprs : List Expr) (context : Context) (count : Nat) :
    (inferSequence exprs context count).Resolves (freeSequence exprs) context :=
  Account.of_sequence Account.scope_sequential exprs context count

/-! ## Lexical scoping -/

/-- What a check reads of its context is told by the free identifiers. -/
structure LexicallyScoped (free : List String) (check : Context → Check Ty) : Prop where
  /-- Contexts that agree on them lead to the same result, the same names and the same log. -/
  agreed : ∀ left right count, AgreeOn free left right → check left count = check right count
  /-- Where the check succeeds they are all bound. -/
  found : ∀ context count type, (check context count).result = .ok type →
    ∀ name ∈ free, ∃ bound, context.lookup? name = some bound
  /-- A variable that the check misses is one of them and not bound. -/
  missed : ∀ context count name place,
    (check context count).result = .error ⟨.unboundVariable name, place⟩ →
      name ∈ free ∧ context.lookup? name = none

/-- Expressions and sequences that are not empty are lexically scoped. -/
theorem checks_lexically_scoped :
    (∀ expr : Expr, LexicallyScoped expr.free expr.infer) ∧
    ∀ exprs : List Expr, exprs ≠ [] →
      LexicallyScoped (freeSequence exprs) (inferSequence exprs) := by
  constructor
  · intro expr
    refine ⟨fun left right count agree => congrFun (expr.infer_agree agree) count, ?_, ?_⟩
    · intro context count type succeeded name member
      exact Option.isSome_iff_exists.mp
        ((expr.infer_resolves context count).bound type succeeded name member)
    · exact fun context count => (expr.infer_resolves context count).missed
  · intro exprs nonempty
    refine ⟨fun left right count agree => ?_, ?_, ?_⟩
    · rw [inferSequence_agree exprs agree fun empty => absurd empty nonempty]
    · intro context count type succeeded name member
      exact Option.isSome_iff_exists.mp
        ((inferSequence_resolves exprs context count).bound type succeeded name member)
    · exact fun context count => (inferSequence_resolves exprs context count).missed

/-- The definition hides an outer `x` from the value of the inner `y`, which does not see itself.
Another type of the outer `x` changes nothing, and without `z` the check fails. -/
theorem hidden_definition_lexically_scoped :
    let exprs : List Expr :=
      [.define .origin ⟨"x", .number .origin⟩ (.identifier .origin "y"),
        .letForm .origin [.mk ⟨"y", .number .origin⟩ (.identifier .origin "x")]
          [.application .origin (.primitive .origin "+")
            [.identifier .origin "y", .identifier .origin "z"]]]
    let less := Context.empty.extend "y" .number
    let left := less.extend "z" .number
    let right := (left.extend "x" .string).moveTo ⟨3, 7⟩
    exprs ≠ [] ∧ freeSequence exprs = ["y", "z"] ∧ AgreeOn (freeSequence exprs) left right ∧
      inferSequence exprs left 0 = inferSequence exprs right 0 ∧
      (inferSequence exprs left 0).result = .ok .number ∧
      (∃ bound, left.lookup? "z" = some bound) ∧
      (inferSequence exprs less 0).result = .error ⟨.unboundVariable "z", .origin⟩ ∧
      "z" ∈ freeSequence exprs ∧ less.lookup? "z" = none := by
  intro exprs less left right
  have free : freeSequence exprs = ["y", "z"] := by decide
  have agree : AgreeOn (freeSequence exprs) left right := by
    rw [free]
    exact List.forall_mem_cons.mpr ⟨by decide, List.forall_mem_cons.mpr ⟨by decide, nofun⟩⟩
  have lexical := checks_lexically_scoped.2 exprs (by simp [exprs])
  have succeeded : (inferSequence exprs left 0).result = .ok .number := rfl
  have failed : (inferSequence exprs less 0).result = .error ⟨.unboundVariable "z", .origin⟩ := rfl
  exact ⟨by simp [exprs], free, agree, lexical.agreed left right 0 agree, succeeded,
    lexical.found left 0 .number succeeded "z" (by simp [free]), failed,
    lexical.missed less 0 "z" .origin failed⟩

end TypedForms
