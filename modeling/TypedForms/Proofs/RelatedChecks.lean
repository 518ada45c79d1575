import TypedForms.Proofs.RuleRelations

/-! Two checks side by side.

Two checks run alike when they create names and log entries that are alike and
then both succeed, with values that are related, or both fail, with errors that
are alike.  What counts as alike is a parameter, and so are the counts of names
that the two may begin with.
-/
namespace TypedForms

/-- A relation between lists that outlasts putting further lists behind them. -/
structure ListRelation (α : Type) where
  Rel : List α → List α → Prop
  nil : Rel [] []
  append : ∀ {left right later laterRight}, Rel left right → Rel later laterRight →
    Rel (left ++ later) (right ++ laterRight)

namespace ListRelation

/-- All lists. -/
def any : ListRelation α where
  Rel _ _ := True
  nil := trivial
  append _ _ := trivial

/-- The same list twice. -/
def same : ListRelation α where
  Rel := Eq
  nil := rfl
  append left later := by rw [left, later]

/-- Lists of one length. -/
def sameLength : ListRelation α where
  Rel left right := left.length = right.length
  nil := rfl
  append left later := by rw [List.length_append, List.length_append, left, later]

/-- Empty lists. -/
def empty : ListRelation α where
  Rel left right := left = [] ∧ right = []
  nil := ⟨rfl, rfl⟩
  append left later := by simp [left, later]

end ListRelation

/-- How two checks may differ: in the counts of names created before them, in the names that they
create, in their logs and in their errors. -/
structure Likeness where
  counts : Nat → Nat → Prop
  created : ListRelation String
  events : ListRelation Event
  errors : TypeError → TypeError → Prop
  /-- The counts stay in step when the two checks create names that are alike. -/
  later : ∀ {left right names others}, counts left right → created.Rel names others →
    counts (left + names.length) (right + others.length)

/-- Both results are values that are related, or both are errors that are alike. -/
inductive Likeness.Results (likeness : Likeness) (values : α → β → Prop) :
    Except TypeError α → Except TypeError β → Prop where
  | ok (related : values left right) : likeness.Results values (.ok left) (.ok right)
  | error (alike : likeness.errors left right) :
      likeness.Results values (.error left) (.error right)

/-- The names and the log are alike, and the results belong together. -/
structure Outcome.Related (likeness : Likeness) (values : α → β → Prop) (left : Outcome α)
    (right : Outcome β) : Prop where
  created : likeness.created.Rel left.created right.created
  events : likeness.events.Rel left.events right.events
  result : likeness.Results values left.result right.result

namespace Check

/-- Two checks that run alike from counts that are in step. -/
def Related (likeness : Likeness) (values : α → β → Prop) (left : Check α) (right : Check β) :
    Prop :=
  ∀ count other, likeness.counts count other → (left count).Related likeness values (right other)

variable {likeness : Likeness}

theorem related_pure {values : α → β → Prop} (related : values left right) :
    (pure left : Check α).Related likeness values (pure right : Check β) :=
  fun _ _ _ => ⟨likeness.created.nil, likeness.events.nil, .ok related⟩

theorem related_fail {values : α → β → Prop} {context other : Context}
    {cause otherCause : TypeError.Cause}
    (alike : likeness.errors ⟨cause, context.range⟩ ⟨otherCause, other.range⟩) :
    (context.fail cause : Check α).Related likeness values (other.fail otherCause : Check β) :=
  fun _ _ _ => ⟨likeness.created.nil, likeness.events.nil, .error alike⟩

/-- What follows a pair of checks that run alike begins with related values and counts in step. -/
theorem related_bind {values : α → β → Prop} {results : γ → δ → Prop} {left : Check α}
    {right : Check β} {next : α → Check γ} {other : β → Check δ}
    (firsts : left.Related likeness values right)
    (nexts : ∀ value value', values value value' →
      (next value).Related likeness results (other value')) :
    (left >>= next).Related likeness results (right >>= other) := by
  intro count count' inStep
  have ran := firsts count count' inStep
  change (andThen left next count).Related likeness results (andThen right other count')
  match ended : left count, ended' : right count' with
  | ⟨result, created, events⟩, ⟨result', created', events'⟩ =>
    rw [ended, ended'] at ran
    obtain ⟨names, entries, belong⟩ := ran
    cases belong with
    | error alike =>
      rw [andThen_error ended, andThen_error ended']
      exact ⟨names, entries, .error alike⟩
    | ok related =>
      rw [andThen_ok ended, andThen_ok ended']
      have rest := nexts _ _ related _ _ (likeness.later inStep names)
      exact ⟨likeness.created.append names rest.created,
        likeness.events.append entries rest.events, rest.result⟩

theorem related_log {values : α → β → Prop} {entries entries' : List Event}
    {next : Unit → Check α} {other : Unit → Check β} (alike : likeness.events.Rel entries entries')
    (related : (next ()).Related likeness values (other ())) :
    (log entries >>= next).Related likeness values (log entries' >>= other) := by
  have logs : (log entries).Related likeness Eq (log entries') :=
    fun _ _ _ => ⟨likeness.created.nil, alike, .ok rfl⟩
  exact related_bind logs fun _ _ _ => related

/-- Demands run alike when both are met or both are refused. -/
theorem related_demand {values : Unit → Unit → Prop} {left right : Check Unit} {met met' : Bool}
    {error error' : TypeError} {entries entries' : List Event}
    (ended : ∀ count, left count = ⟨if met then .ok () else .error error, [], entries⟩)
    (ended' : ∀ count, right count = ⟨if met' then .ok () else .error error', [], entries'⟩)
    (same : met = met') (alike : likeness.events.Rel entries entries')
    (refused : likeness.errors error error') (value : values () ()) :
    left.Related likeness values right := by
  intro count other _
  rw [ended, ended', same]
  cases met' with
  | true => exact ⟨likeness.created.nil, alike, .ok value⟩
  | false => exact ⟨likeness.created.nil, alike, .error refused⟩

/-- Applications run alike when both types are procedures of one length, or none is. -/
theorem related_procedure {values : List Ty × Ty → List Ty × Ty → Prop} {context other : Context}
    {type type' : Ty} {operands : Nat} {text text' : Unit → String}
    (procedure : ∀ params result, type = .proc params result → ∃ params' result',
      type' = .proc params' result' ∧ params'.length = params.length ∧
        (params.length = operands → values (params, result) (params', result')))
    (neither : (∀ params result, type ≠ .proc params result) →
      ∀ params result, type' ≠ .proc params result)
    (arity : ∀ expected, likeness.errors
      ⟨.arityMismatch expected operands (text ()), context.range⟩
      ⟨.arityMismatch expected operands (text' ()), other.range⟩)
    (kind : likeness.errors ⟨.nonProcedure type (text ()), context.range⟩
      ⟨.nonProcedure type' (text' ()), other.range⟩) :
    (context.demandProcedure type operands text).Related likeness values
      (other.demandProcedure type' operands text') := by
  rcases context.demandProcedure_cases type operands text with
    ⟨params, result, isProc, fits, ended⟩ | ⟨params, result, isProc, unfit, ended⟩ | ⟨no, ended⟩
  · obtain ⟨params', result', rfl, sameLength, value⟩ := procedure params result isProc
    have ended' : other.demandProcedure (.proc params' result') operands text' =
        pure (params', result') := if_pos (sameLength.trans fits)
    rw [ended, ended']
    exact related_pure (value fits)
  · obtain ⟨params', result', rfl, sameLength, _⟩ := procedure params result isProc
    have ended' : other.demandProcedure (.proc params' result') operands text' =
        other.fail (.arityMismatch params'.length operands (text' ())) :=
      if_neg fun fits => unfit (sameLength.symm.trans fits)
    rw [ended, ended', sameLength]
    exact related_fail (arity params.length)
  · have ended' : other.demandProcedure type' operands text' =
        other.fail (.nonProcedure type' (text' ())) := by
      cases type' with
      | proc params' result' => exact absurd rfl (neither no params' result')
      | _ => rfl
    rw [ended, ended']
    exact related_fail kind

theorem related_lookup {values : Ty → Ty → Prop} {context other : Context} {name : String}
    (bound : Option.Rel values (context.lookup? name) (other.lookup? name))
    (alike : likeness.errors ⟨.unboundVariable name, context.range⟩
      ⟨.unboundVariable name, other.range⟩) :
    (context.lookup name).Related likeness values (other.lookup name) := by
  unfold Context.lookup
  generalize context.lookup? name = found at bound ⊢
  generalize other.lookup? name = found' at bound ⊢
  cases bound with
  | some related => exact related_pure related
  | none => exact related_fail alike

theorem related_primitive {values : Ty → Ty → Prop} {context other : Context} {name : String}
    (signatures : ∀ primitive, Primitive.ofName? name = some primitive →
      primitive.signature.Related likeness values primitive.signature)
    (alike : likeness.errors ⟨.unimplementedPrimitive name, context.range⟩
      ⟨.unimplementedPrimitive name, other.range⟩) :
    (context.primitive name).Related likeness values (other.primitive name) := by
  unfold Context.primitive
  cases found : Primitive.ofName? name with
  | some primitive => exact signatures primitive found
  | none => exact related_fail alike

/-- Definitions are announced alike, and what follows runs alike in the contexts that they make. -/
theorem related_declare {values : α → β → Prop} {context other : Context} {expr copy : Expr}
    {next : Context → Check α} {next' : Context → Check β}
    (alike : likeness.events.Rel (expr.definition.map fun pair => .defined pair.1 pair.2)
      (copy.definition.map fun pair => .defined pair.1 pair.2))
    (related : (next (context.extendPairs expr.definition)).Related likeness values
      (next' (other.extendPairs copy.definition))) :
    (context.declare expr >>= next).Related likeness values (other.declare copy >>= next') := by
  rw [Context.declare_eq, Context.declare_eq, bind_assoc, bind_assoc]
  exact related_log alike related

end Check

end TypedForms
