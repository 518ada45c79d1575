import TypedForms.Proofs.RuleRelations

/-! Accounts of how checks go.

An account says something about the names that a check creates, about its log and
about whether it fails, but nothing about the value.  When it holds of two checks
in a row, of an expression that is entered, of scopes and of what operators and
identifiers do, it holds of every check of a tree.
-/
namespace TypedForms

open Checking (lift extending)

/-- A claim about outcomes, for what the check has gone through, the context and the count of names
created before. -/
structure Account (G : Type) where
  tally : Tally G
  lawful : tally.Lawful
  Holds : {α : Type} → G → Context → Nat → Outcome α → Prop
  done : ∀ {α context count} {value : α} (decisions : List Ty.Decision),
    Holds tally.none context count ⟨.ok value, [], decisions.map .decided⟩
  refused : ∀ {α g context count error} (decisions : List Ty.Decision),
    (∀ name, error.cause ≠ .unboundVariable name) →
    Holds g context count (⟨.error error, [], decisions.map .decided⟩ : Outcome α)
  failed : ∀ {α β g h context count error created events},
    Holds g context count (⟨.error error, created, events⟩ : Outcome α) →
    Holds (tally.add g h) context count (⟨.error error, created, events⟩ : Outcome β)
  went : ∀ {α β g h context count created events} {value : α} {outcome : Outcome β},
    Holds g context count ⟨.ok value, created, events⟩ →
    Holds h context (count + created.length) outcome →
    Holds (tally.add g h) context count
      ⟨outcome.result, created ++ outcome.created, events ++ outcome.events⟩
  enter : ∀ {α g context count} {outcome : Outcome α} {node : Expr},
    Holds g (context.moveTo node.range) count outcome →
    Holds (tally.enter node g) context count
      ⟨outcome.result, outcome.created, .typing node :: outcome.events⟩
  within : ∀ {α g context count} {outcome : Outcome α} {pairs : List (String × Ty)},
    Holds g (context.extendPairs pairs) count outcome →
    Holds (tally.within (pairs.map Prod.fst) g) context count outcome
  primitive : ∀ {name primitive context count} {type : Ty},
    Primitive.ofName? name = some primitive →
    Holds (tally.primitive name) context count
      ⟨.ok type, (List.range' count primitive.variables).map generatedName, []⟩
  found : ∀ {name type context count}, context.lookup? name = some type →
    Holds (tally.identifier name) context count (⟨.ok type, [], []⟩ : Outcome Ty)
  missed : ∀ {name context count}, context.lookup? name = none →
    Holds (tally.identifier name) context count
      (⟨.error ⟨.unboundVariable name, context.range⟩, [], []⟩ : Outcome Ty)

namespace Account

variable {G : Type} (account : Account G)

/-- The account holds of the check, and its value meets the condition. -/
def Of (g : G) (context : Context) (holds : α → Prop) (check : Check α) : Prop :=
  ∀ count, account.Holds g context count (check count) ∧
    ∀ value, (check count).result = .ok value → holds value

variable {account} {context place : Context} {holds : α → Prop}

theorem of_pure (value : holds result) :
    account.Of account.tally.none context holds (pure result) :=
  fun _ => ⟨account.done [], fun _ same => by cases same; exact value⟩

theorem of_fail {g : G} {cause : TypeError.Cause} (other : ∀ name, cause ≠ .unboundVariable name) :
    account.Of g context holds (place.fail cause) :=
  fun _ => ⟨account.refused [] other, nofun⟩

theorem of_bind {g h : G} {first : Check α} {next : α → Check β} {later : β → Prop}
    (ofFirst : account.Of g context holds first)
    (ofNext : ∀ value, holds value → account.Of h context later (next value)) :
    account.Of (account.tally.add g h) context later (first >>= next) := by
  intro count
  obtain ⟨held, value⟩ := ofFirst count
  refine Check.bind_elim (motive := fun outcome =>
      account.Holds (account.tally.add g h) context count outcome ∧
        ∀ value, outcome.result = .ok value → later value)
    (fun error created events ended => ?_) fun result created events ended => ?_
  · rw [ended] at held
    exact ⟨account.failed held, nofun⟩
  · rw [ended] at held value
    obtain ⟨heldLater, valueLater⟩ := ofNext result (value result rfl) (count + created.length)
    exact ⟨account.went held heldLater, valueLater⟩

theorem of_enter {g : G} {node : Expr} {next : Unit → Check α}
    (ofNext : account.Of g (context.moveTo node.range) holds (next ())) :
    account.Of (account.tally.enter node g) context holds (Check.log [.typing node] >>= next) :=
  fun count => ⟨account.enter (ofNext count).1, (ofNext count).2⟩

/-- A demand is met or refused. -/
theorem of_demand {check : Check Unit} {met : Bool} {error : TypeError}
    {decisions : List Ty.Decision} {holds : Unit → Prop}
    (ended : ∀ count, check count =
      ⟨if met then .ok () else .error error, [], decisions.map .decided⟩)
    (other : ∀ name, error.cause ≠ .unboundVariable name) (value : holds ()) :
    account.Of account.tally.none context holds check := by
  intro count
  rw [ended]
  cases met with
  | true => exact ⟨account.done decisions, fun _ _ => value⟩
  | false => exact ⟨account.refused decisions other, nofun⟩

theorem of_procedure {type : Ty} {operands : Nat} {text : Unit → String}
    {holds : List Ty × Ty → Prop} (value : ∀ found, found.1.length = operands → holds found) :
    account.Of account.tally.none context holds (place.demandProcedure type operands text) := by
  rcases place.demandProcedure_cases type operands text with
    ⟨params, result, _, fits, isPure⟩ | ⟨params, result, _, _, isFail⟩ | ⟨_, isFail⟩
  · rw [isPure]
    exact of_pure (value (params, result) fits)
  · rw [isFail]
    exact of_fail fun _ => nofun
  · rw [isFail]
    exact of_fail fun _ => nofun

theorem of_primitive {holds : Ty → Prop} (value : ∀ type, holds type) (name : String) :
    account.Of (account.tally.primitive name) context holds (place.primitive name) := by
  rcases place.primitive_cases name with ⟨primitive, found, isSignature⟩ | ⟨_, isFail⟩
  · intro count
    obtain ⟨type, ended⟩ := primitive.signature_outcome count
    rw [isSignature, ended]
    exact ⟨account.primitive found, fun type _ => value type⟩
  · rw [isFail]
    exact of_fail fun _ => nofun

theorem of_lookup {holds : Ty → Prop} (value : ∀ type, holds type) (name : String) :
    account.Of (account.tally.identifier name) context holds (context.lookup name) := by
  rcases context.lookup_cases name with ⟨type, found, isPure⟩ | ⟨missed, isFail⟩
  · rw [isPure]
    exact fun _ => ⟨account.found found, fun type _ => value type⟩
  · rw [isFail]
    exact fun _ => ⟨account.missed missed, nofun⟩

/-! ## The typing rules -/

/-- An account is a relation that looks at one side only. -/
def steps (account : Account G) : StepRelation Check Check G where
  trees := .same fun _ => True
  types := .any
  tally := account.tally
  lawful := account.lawful
  Rel now g context _ values check _ :=
    account.Of g context (fun value => ∃ other, values now value other) check
  ascribed _ _ := trivial
  pure value := of_pure ⟨_, value⟩
  bind first next := of_bind first fun _ ⟨_, value⟩ => next _ _ _ (Nat.le_refl _) value
  enter _ next := of_enter next
  within _ next count := ⟨account.within (next count).1, (next count).2⟩
  primitive _ _ _ := of_primitive (fun type => ⟨type, trivial⟩) _
  lookup _ _ _ := of_lookup (fun type => ⟨type, trivial⟩) _
  boolean _ _ _ :=
    of_demand (Context.demandBoolean_outcome _ _ _) (fun _ => nofun) ⟨(), trivial⟩
  applied _ _ _ := of_procedure fun found fits =>
    ⟨found, fits, List.forall₂_same.mpr fun _ _ => trivial, trivial⟩
  compared _ _ _ _ :=
    of_demand (Context.demandCompatible_outcome _ _ _ _) (fun _ => nofun) ⟨(), trivial⟩
  empty _ _ _ _ _ := of_fail fun _ => nofun
  refused _ _ _ _ := of_fail fun _ => nofun

/-- The account takes no notice of announcements: only the scope of a definition counts. -/
structure Sequential (account : Account G) : Prop where
  adds : account.tally.InSequence
  announced : ∀ {α : Type} {g context count} {outcome : Outcome α} (pairs : List (String × Ty)),
    account.Holds g context count outcome →
    account.Holds g context count ⟨outcome.result, outcome.created,
      (pairs.map fun pair => .defined pair.1 pair.2) ++ outcome.events⟩

theorem of_declare {g : G} (sequential : account.Sequential) {expr : Expr}
    {next : Context → Check α}
    (ofNext : account.Of g (context.extendPairs expr.definition) holds
      (next (context.extendPairs expr.definition))) :
    account.Of (account.tally.within (expr.definition.map Prod.fst) g) context holds
      (context.declare expr >>= next) := by
  rw [Context.declare_eq, bind_assoc]
  exact fun count => ⟨account.within (sequential.announced _ (ofNext count).1), (ofNext count).2⟩

/-- The rules respect the account. -/
def rules (account : Account G) (sequential : account.Sequential) :
    RuleRelation Check Check G :=
  account.steps.rules sequential.adds fun _ next => of_declare sequential next

theorem of_expr (sequential : account.Sequential) (tree : Expr) (context : Context) (count : Nat) :
    account.Holds (account.tally.expr tree) context count (tree.infer context count) :=
  ((account.rules sequential).relates_expr (fun _ _ => trivial) 0 context context
    count).1

theorem of_sequence (sequential : account.Sequential) (exprs : List Expr) (context : Context)
    (count : Nat) :
    account.Holds (account.tally.sequence exprs) context count
      (inferSequence exprs context count) :=
  ((account.rules sequential).relates_exprs (fun _ _ _ _ => trivial) 0 context context
    (fun _ => of_fail fun _ => nofun) count).1

end Account

end TypedForms
