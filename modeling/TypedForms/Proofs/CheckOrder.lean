import TypedForms.Proofs.CheckAccounts

/-! The order of checks, as the log tells it.

Every expression is entered once, from left to right and before its parts.  Only
the lambdas that a `letrec` binds are not entered, because the `letrec` checks
their bodies itself.  A definition that is not last in its sequence is announced
as soon as its own check is over, and then the next expression is entered.  The
first failure ends all this, so what has been logged by then is a beginning.
-/
namespace TypedForms

/-! ## What is to be checked -/

mutual

/-- The expressions that the check of an expression enters, in order. -/
def Expr.visited (expr : Expr) : List Expr :=
  expr :: match expr with
    | .conditional _ test thenBranch elseBranch =>
      test.visited ++ (thenBranch.visited ++ elseBranch.visited)
    | .lambda _ _ _ body => visitedAll body
    | .application _ operator operands => operator.visited ++ visitedAll operands
    | .letForm _ bindings body => visitedValues bindings ++ visitedAll body
    | .letrecForm _ bindings body => visitedBodies bindings ++ visitedAll body
    | .define _ _ value => value.visited
    | _ => []

/-- The expressions entered for a list of expressions. -/
def visitedAll : List Expr → List Expr
  | [] => []
  | expr :: rest => expr.visited ++ visitedAll rest

/-- The expressions entered for the values of a `let`. -/
def visitedValues : List Binding → List Expr
  | [] => []
  | .mk _ value :: rest => value.visited ++ visitedValues rest

/-- The expressions entered for the values of a `letrec`: of a lambda those of its body only. -/
def visitedBodies : List Binding → List Expr
  | [] => []
  | .mk _ (.lambda _ _ _ body) :: rest => visitedAll body ++ visitedBodies rest
  | .mk _ value :: rest => value.visited ++ visitedBodies rest

end

/-- A definition and the expression that follows it in its sequence. -/
structure Definition where
  place : Range
  var : TypedVar
  value : Expr
  next : Expr

namespace Definition

/-- The definition itself. -/
def expr (definition : Definition) : Expr :=
  .define definition.place definition.var definition.value

/-- The entry of the log that announces the definition. -/
def entry (definition : Definition) : Event :=
  .defined definition.var.name definition.var.declared

/-- The definition that an expression is when another one follows it. -/
def before (next : Expr) : Expr → List Definition
  | .define place var value => [⟨place, var, value, next⟩]
  | _ => []

end Definition

mutual

/-- The definitions inside an expression that are not last in their sequence.  Definitions inside
the value of another come before it. -/
def Expr.definitions : Expr → List Definition
  | .conditional _ test thenBranch elseBranch =>
    test.definitions ++ (thenBranch.definitions ++ elseBranch.definitions)
  | .lambda _ _ _ body => sequenceDefinitions body
  | .application _ operator operands => operator.definitions ++ operandDefinitions operands
  | .letForm _ bindings body => valueDefinitions bindings ++ sequenceDefinitions body
  | .letrecForm _ bindings body => valueDefinitions bindings ++ sequenceDefinitions body
  | .define _ _ value => value.definitions
  | _ => []

/-- The definitions of a sequence that are not last, and those inside its expressions. -/
def sequenceDefinitions : List Expr → List Definition
  | [] => []
  | [last] => last.definitions
  | expr :: next :: rest =>
    expr.definitions ++ (Definition.before next expr ++ sequenceDefinitions (next :: rest))

/-- The definitions inside operands. -/
def operandDefinitions : List Expr → List Definition
  | [] => []
  | operand :: rest => operand.definitions ++ operandDefinitions rest

/-- The definitions inside the values of bindings. -/
def valueDefinitions : List Binding → List Definition
  | [] => []
  | .mk _ value :: rest => value.definitions ++ valueDefinitions rest

end

/-! ## What has been logged -/

/-- Entries that are made when an expression is entered. -/
def Event.isTyping : Event → Bool
  | .typing _ => true
  | _ => false

/-- Entries that announce a definition. -/
def Event.isDefined : Event → Bool
  | .defined .. => true
  | _ => false

/-- The entries end with those of a check of the expression, which has succeeded. -/
def Expr.EndsLog (expr : Expr) (events : List Event) : Prop :=
  ∃ context count type, (expr.infer context count).result = .ok type ∧
    (expr.infer context count).events <:+ events

/-- The entries begin with those of a check of the expression. -/
def Expr.BeginsLog (expr : Expr) (events : List Event) : Prop :=
  ∃ context count, (expr.infer context count).events <+: events

/-- Each announcement in the middle part of a log is that of the definition whose turn it is.  It
stands right behind the entries of the definition's own check and right before those of the next
expression. -/
def Placed (definitions : List Definition) (past events future : List Event) : Prop :=
  ∀ before entry after, events = before ++ entry :: after → entry.isDefined = true →
    ∃ definition, definitions[(before.filter Event.isDefined).length]? = some definition ∧
      entry = definition.entry ∧ definition.expr.EndsLog (past ++ before) ∧
      definition.next.BeginsLog (after ++ future)

namespace Placed

theorem unannounced {events : List Event} (silent : ∀ event ∈ events, event.isDefined = false) :
    Placed definitions past events future := by
  intro before entry after split defined
  have member : entry ∈ events := by simp [split]
  rw [silent entry member] at defined
  cases defined

theorem announced {definition : Definition} (ends : definition.expr.EndsLog past)
    (begins : definition.next.BeginsLog future) :
    Placed [definition] past [definition.entry] future := by
  intro before entry after split _
  cases before with
  | nil =>
    obtain ⟨rfl, rfl⟩ : entry = definition.entry ∧ after = [] := by simpa using split.symm
    exact ⟨definition, rfl, rfl, by simpa using ends, begins⟩
  | cons => simp at split

/-- Definitions whose turn has not come make no difference. -/
theorem more (placed : Placed first past events future) (second : List Definition) :
    Placed (first ++ second) past events future := by
  intro before entry after split defined
  obtain ⟨definition, found, rest⟩ := placed before entry after split defined
  obtain ⟨inside, _⟩ := List.getElem?_eq_some_iff.mp found
  exact ⟨definition, by rw [List.getElem?_append_left inside, found], rest⟩

private theorem entry_of_append {left right before after : List Event} {entry : Event}
    (split : left ++ right = before ++ entry :: after) :
    (∃ between, left = before ++ entry :: between ∧ after = between ++ right) ∨
      ∃ between, before = left ++ between ∧ right = between ++ entry :: after := by
  rcases List.append_eq_append_iff.mp split with inRight | ⟨between, inLeft, rest⟩
  · exact .inr inRight
  · cases between with
    | nil => exact .inr ⟨[], by simpa using inLeft.symm, by simpa using rest.symm⟩
    | cons head between =>
      obtain ⟨rfl, rfl⟩ : entry = head ∧ after = between ++ right := by simpa using rest
      exact .inl ⟨between, inLeft, rfl⟩

theorem append {left right : List Event}
    (leftPlaced : Placed first past left (right ++ future))
    (all : (left.filter Event.isDefined).length = first.length)
    (rightPlaced : Placed second (past ++ left) right future) :
    Placed (first ++ second) past (left ++ right) future := by
  intro before entry after split defined
  rcases entry_of_append split with ⟨between, inLeft, rfl⟩ | ⟨between, rfl, inRight⟩
  · obtain ⟨definition, found, same, ends, begins⟩ :=
      leftPlaced.more second before entry between inLeft defined
    exact ⟨definition, found, same, ends, by simpa using begins⟩
  · obtain ⟨definition, found, same, ends, begins⟩ :=
      rightPlaced between entry after inRight defined
    refine ⟨definition, ?_, same, by simpa using ends, begins⟩
    rw [List.filter_append, List.length_append, all, List.getElem?_append_right (by omega)]
    simpa using found

/-- More entries before and behind make no difference. -/
theorem widen (placed : Placed definitions [] events []) (past future : List Event) :
    Placed definitions past events future := by
  intro before entry after split defined
  obtain ⟨definition, found, same, ⟨context, count, type, succeeded, ends⟩, inner, start, begins⟩ :=
    placed before entry after split defined
  refine ⟨definition, found, same, ⟨context, count, type, succeeded, ?_⟩, ⟨inner, start, ?_⟩⟩
  · exact ends.trans (List.suffix_append past before)
  · rw [List.append_nil] at begins
    exact begins.trans (List.prefix_append after future)

end Placed

/-! ## Checks that keep the order -/

/-- The log enters a beginning of the expressions and announces a beginning of the definitions.
When the check has succeeded it is all of them. -/
structure Outcome.Lists (visited : List Expr) (definitions : List Definition)
    (outcome : Outcome α) : Prop where
  entered : outcome.events.filter Event.isTyping <+: visited.map .typing
  announced : outcome.events.filter Event.isDefined <+: definitions.map Definition.entry
  finished : ∀ value, outcome.result = .ok value →
    outcome.events.filter Event.isTyping = visited.map .typing ∧
      outcome.events.filter Event.isDefined = definitions.map Definition.entry

/-- The log lists the expressions and the definitions, and each announcement is in its place. -/
structure Outcome.Follows (visited : List Expr) (definitions : List Definition)
    (outcome : Outcome α) : Prop where
  lists : outcome.Lists visited definitions
  placed : Placed definitions [] outcome.events []

namespace Outcome

variable {visited laterVisited : List Expr} {definitions laterDefinitions : List Definition}
  {created : List String} {log : List Event}

theorem lists_failed {error : TypeError}
    (lists : (⟨.error error, created, log⟩ : Outcome α).Lists visited definitions) :
    (⟨.error error, created, log⟩ : Outcome β).Lists (visited ++ laterVisited)
      (definitions ++ laterDefinitions) := by
  refine ⟨?_, ?_, nofun⟩
  · rw [List.map_append]
    exact lists.entered.trans (List.prefix_append _ _)
  · rw [List.map_append]
    exact lists.announced.trans (List.prefix_append _ _)

theorem lists_went {value : α} {later : Outcome β}
    (lists : (⟨.ok value, created, log⟩ : Outcome α).Lists visited definitions)
    (laterLists : later.Lists laterVisited laterDefinitions) :
    (⟨later.result, created ++ later.created, log ++ later.events⟩ : Outcome β).Lists
      (visited ++ laterVisited) (definitions ++ laterDefinitions) := by
  obtain ⟨allEntered, allAnnounced⟩ := lists.finished value rfl
  refine ⟨?_, ?_, fun result succeeded => ?_⟩
  · rw [List.filter_append, List.map_append, allEntered]
    exact (List.prefix_append_right_inj _).mpr laterLists.entered
  · rw [List.filter_append, List.map_append, allAnnounced]
    exact (List.prefix_append_right_inj _).mpr laterLists.announced
  · obtain ⟨laterEntered, laterAnnounced⟩ := laterLists.finished result succeeded
    simp only [List.filter_append, List.map_append, allEntered, allAnnounced, laterEntered,
      laterAnnounced, and_self]

theorem follows_failed {error : TypeError}
    (follows : (⟨.error error, created, log⟩ : Outcome α).Follows visited definitions) :
    (⟨.error error, created, log⟩ : Outcome β).Follows (visited ++ laterVisited)
      (definitions ++ laterDefinitions) :=
  ⟨lists_failed follows.lists, follows.placed.more _⟩

theorem follows_went {value : α} {later : Outcome β}
    (follows : (⟨.ok value, created, log⟩ : Outcome α).Follows visited definitions)
    (laterFollows : later.Follows laterVisited laterDefinitions) :
    (⟨later.result, created ++ later.created, log ++ later.events⟩ : Outcome β).Follows
      (visited ++ laterVisited) (definitions ++ laterDefinitions) := by
  refine ⟨lists_went follows.lists laterFollows.lists, ?_⟩
  refine (follows.placed.widen [] _).append ?_ (laterFollows.placed.widen _ [])
  rw [(follows.lists.finished value rfl).2, List.length_map]

/-- Decisions enter and announce nothing. -/
theorem follows_decided {result : Except TypeError α} (decisions : List Ty.Decision) :
    (⟨result, created, decisions.map .decided⟩ : Outcome α).Follows [] [] := by
  have noTyping : (decisions.map Event.decided).filter Event.isTyping = [] :=
    List.filter_eq_nil_iff.mpr (List.forall_mem_map.mpr fun _ _ => Bool.false_ne_true)
  have noDefined : (decisions.map Event.decided).filter Event.isDefined = [] :=
    List.filter_eq_nil_iff.mpr (List.forall_mem_map.mpr fun _ _ => Bool.false_ne_true)
  exact ⟨⟨by simp [noTyping], by simp [noDefined], fun _ _ => ⟨noTyping, noDefined⟩⟩,
    .unannounced (List.forall_mem_map.mpr fun _ _ => rfl)⟩

theorem follows_refused {error : TypeError} (decisions : List Ty.Decision) :
    (⟨.error error, created, decisions.map .decided⟩ : Outcome α).Follows visited definitions := by
  have silent : (⟨.error error, created, decisions.map .decided⟩ : Outcome α).Follows [] [] :=
    follows_decided decisions
  exact follows_failed silent

theorem follows_enter {node : Expr} {outcome : Outcome α}
    (follows : outcome.Follows visited definitions) :
    (⟨outcome.result, outcome.created, .typing node :: outcome.events⟩ : Outcome α).Follows
      (node :: visited) definitions := by
  have logged : (⟨.ok (), [], [.typing node]⟩ : Outcome Unit).Follows [node] [] :=
    ⟨⟨List.prefix_rfl, List.nil_prefix, fun _ _ => ⟨rfl, rfl⟩⟩,
      .unannounced (List.forall_mem_singleton.mpr rfl)⟩
  exact follows_went logged follows

end Outcome

/-- What a check enters and what it announces, added up. -/
def Tally.order : Tally (List Expr × List Definition) where
  none := ([], [])
  add first second := (first.1 ++ second.1, first.2 ++ second.2)
  enter node inside := (node :: inside.1, inside.2)
  within _ inside := inside
  identifier _ := ([], [])
  primitive _ := ([], [])
  expr tree := (tree.visited, tree.definitions)
  sequence exprs := (visitedAll exprs, sequenceDefinitions exprs)
  operands operands := (visitedAll operands, operandDefinitions operands)
  values bindings := (visitedValues bindings, valueDefinitions bindings)
  bodies bindings := (visitedBodies bindings, valueDefinitions bindings)

theorem Tally.order_lawful : order.Lawful where
  none_add _ := rfl
  add_none _ := by simp [order]
  expr tree := by cases tree <;> rfl
  sequence last := Prod.ext (List.append_nil last.visited) rfl
  operands_nil := rfl
  operands_cons _ _ := rfl
  values_nil := rfl
  values_cons _ _ _ := rfl
  bodies_nil := rfl
  bodies_cons _ _ _ _ _ _ := rfl

/-- Every check follows the order of the parts of its tree. -/
def Account.order : Account (List Expr × List Definition) where
  tally := .order
  lawful := Tally.order_lawful
  Holds listed _ _ outcome := outcome.Follows listed.1 listed.2
  done decisions := Outcome.follows_decided decisions
  refused decisions _ := Outcome.follows_refused decisions
  failed := Outcome.follows_failed
  went := Outcome.follows_went
  enter := Outcome.follows_enter
  within follows := follows
  primitive _ := Outcome.follows_decided []
  found _ := Outcome.follows_decided []
  missed _ := Outcome.follows_decided []

/-! ## Sequences -/

theorem Placed.before {expr next : Expr} (ends : expr.EndsLog past)
    (begins : next.BeginsLog future) :
    Placed (Definition.before next expr) past ((Definition.before next expr).map Definition.entry)
      future := by
  cases expr with
  | define => exact .announced ends begins
  | _ => exact .unannounced nofun

end TypedForms
