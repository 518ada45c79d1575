import TypedForms.Proofs.LexicalScoping

/-! Checks that are watched.

The outcome of a check says nothing about the contexts that it went through.  A
watched check follows the typing rules and notes, besides, every context that it
extends.  Leaving the notes out gives the check itself, so what holds of all
watched checks holds of the checker.
-/
namespace TypedForms

/-- The outcome of a check and the contexts that it extended, in order. -/
structure Watched (α : Type) where
  outcome : Outcome α
  extended : List Context

/-- A check that notes the contexts it extends. -/
def Watch (α : Type) : Type := Nat → Watched α

namespace Watch

/-- Ends at once with a value. -/
def done (value : α) : Watch α := fun count => ⟨Check.done value count, []⟩

/-- Goes on with the value of the first check.  What has been noted survives a failure. -/
def andThen (first : Watch α) (next : α → Watch β) : Watch β := fun count =>
  match first count with
  | ⟨⟨.error error, created, events⟩, extended⟩ => ⟨⟨.error error, created, events⟩, extended⟩
  | ⟨⟨.ok value, created, events⟩, extended⟩ =>
    let later := next value (count + created.length)
    ⟨⟨later.outcome.result, created ++ later.outcome.created, events ++ later.outcome.events⟩,
      extended ++ later.extended⟩

instance : Monad Watch where
  pure := done
  bind := andThen

/-- A check that extends no context. -/
def lift (check : Check α) : Watch α := fun count => ⟨check count, []⟩

/-- Notes a context that has been extended. -/
def note (context : Context) : Watch Context := fun _ => ⟨⟨.ok context, [], []⟩, [context]⟩

/-- A check that extends a context. -/
def extending (check : Check Context) : Watch Context := do
  let context ← lift check
  note context

/-- The check without the notes. -/
def check (watch : Watch α) : Check α := fun count => (watch count).outcome

@[simp] theorem check_lift (check : Check α) : (lift check).check = check := rfl

@[simp] theorem check_pure (value : α) : (pure value : Watch α).check = pure value := rfl

@[simp] theorem check_note (context : Context) : (note context).check = pure context := rfl

@[simp] theorem check_bind (first : Watch α) (next : α → Watch β) :
    (first >>= next).check = first.check >>= fun value => (next value).check := by
  funext count
  match ended : first count with
  | ⟨⟨.error error, created, events⟩, extended⟩ =>
    have whole : first.check count = ⟨.error error, created, events⟩ := by
      rw [check, ended]
    have failed : (first >>= next) count = ⟨⟨.error error, created, events⟩, extended⟩ := by
      simp [Bind.bind, andThen, ended]
    rw [check, failed]
    exact (Check.andThen_error whole).symm
  | ⟨⟨.ok value, created, events⟩, extended⟩ =>
    have whole : first.check count = ⟨.ok value, created, events⟩ := by
      rw [check, ended]
    have went : (first >>= next) count =
        ⟨⟨(next value (count + created.length)).outcome.result,
            created ++ (next value (count + created.length)).outcome.created,
            events ++ (next value (count + created.length)).outcome.events⟩,
          extended ++ (next value (count + created.length)).extended⟩ := by
      simp [Bind.bind, andThen, ended]
    rw [check, went]
    change _ = Check.andThen first.check (fun value => (next value).check) count
    rw [Check.andThen_ok whole]
    rfl

@[simp] theorem check_extending (check : Check Context) : (extending check).check = check := by
  simp [extending]

end Watch

instance : Checking Watch where
  lift := Watch.lift
  extending := Watch.extending

/-- Checks an expression and watches. -/
abbrev Expr.watch (expr : Expr) (outer : Context) : Watch Ty := expr.inferIn Watch outer

/-- Checks a sequence and watches. -/
abbrev watchSequence (exprs : List Expr) (context : Context) : Watch Ty :=
  inferSequenceIn Watch exprs context

/-- Checks a program and watches. -/
abbrev Program.watch (program : Program) (context : Context) : Watch Ty :=
  program.inferIn Watch context

/-! ## The notes change nothing -/

section Relations

variable {n : Type → Type} [Checking n] {G : Type}

/-- A watched check is related to what the check without its notes is related to. -/
def StepRelation.watched (relation : StepRelation Check n G) : StepRelation Watch n G where
  trees := relation.trees
  types := relation.types
  tally := relation.tally
  lawful := relation.lawful
  Rel now g context other values watch check :=
    relation.Rel now g context other values watch.check check
  ascribed := relation.ascribed
  pure := relation.pure
  bind first next := by
    rw [Watch.check_bind]
    exact relation.bind first next
  enter node next := by
    rw [Watch.check_bind]
    exact relation.enter node next
  within bound next := by
    rw [Watch.check_bind]
    exact relation.within bound next
  primitive := relation.primitive
  lookup := relation.lookup
  boolean := relation.boolean
  applied := relation.applied
  compared := relation.compared
  empty := relation.empty
  refused := relation.refused

theorem StepRelation.watched_declares {relation : StepRelation Check n G}
    (declares : relation.Declares) : relation.watched.Declares := by
  intro _ _ context _ _ expr _ _ _ bound next
  have plain : (Checking.extending (context.declare expr) : Watch Context).check =
      context.declare expr := Watch.check_extending _
  change relation.Rel _ _ _ _ _ (Watch.check (_ >>= _)) _
  rw [Watch.check_bind, plain]
  exact declares bound next

end Relations

/-- A watched check runs like the check. -/
def Watch.agreeing : RuleRelation Watch Check (List String) :=
  Likeness.exactSteps.watched.rules Tally.free_inSequence
    (StepRelation.watched_declares Likeness.exactSteps_declares)

/-- A watched check is the check. -/
theorem Expr.check_watch (expr : Expr) (outer : Context) :
    (expr.watch outer).check = expr.infer outer :=
  Check.eq_of_related (Watch.agreeing.relates_expr (fun _ _ => trivial) 0 outer outer
    fun _ _ => rfl)

theorem check_watchSequence (exprs : List Expr) (context : Context) :
    (watchSequence exprs context).check = inferSequence exprs context := by
  have related := Watch.agreeing.relates_exprs (fun _ _ _ _ => trivial) 0 context context
    fun (_ : exprs = []) _ => Check.related_fail rfl
  rw [show exprs.map Watch.agreeing.trees.expr = exprs from List.map_id exprs] at related
  exact Check.eq_of_related (related fun _ _ => rfl)

theorem Program.check_watch (program : Program) (context : Context) :
    (Program.watch program context).check = Program.infer program context := by
  rw [Program.watch, Program.inferIn, Watch.check_bind, check_watchSequence]
  rfl

end TypedForms
