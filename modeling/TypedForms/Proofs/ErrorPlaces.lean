import TypedForms.Checker
import TypedForms.Proofs.RuleRelations
import TypedForms.Proofs.WellFormedTrees

/-! Where the checker reports an error.

The place of an error is that of the context, which moves from node to node with
the check, while the text that the error quotes is that of the form in which it
was found.  An error arises in a list of nodes when one of them accounts for the
place and for the text.  Whatever a tree looks like, its errors arise in its own
nodes.  The error about empty sequences needs an empty body, and what has been
parsed has none.
-/
namespace TypedForms

namespace TypeError

/-- The errors that the nodes account for: what is wrong, the text that is quoted and the place. -/
inductive ArisesIn (nodes : List Expr) : TypeError → Prop where
  | unbound (here : .identifier place name ∈ nodes) :
      ArisesIn nodes ⟨.unboundVariable name, place⟩
  | unimplemented (here : .primitive place name ∈ nodes) :
      ArisesIn nodes ⟨.unimplementedPrimitive name, place⟩
  | incompatible (here : node ∈ nodes) :
      ArisesIn nodes ⟨.incompatible left right node.text, node.range⟩
  | nonProcedure (here : .application place operator operands ∈ nodes) :
      ArisesIn nodes ⟨.nonProcedure found (Expr.application place operator operands).text, place⟩
  | arityMismatch (here : .application place operator operands ∈ nodes) :
      ArisesIn nodes ⟨.arityMismatch expected operands.length
        (Expr.application place operator operands).text, place⟩
  /-- The whole conditional is quoted and its test is the place. -/
  | testNotBoolean (here : .conditional place test thenBranch elseBranch ∈ nodes)
      (tested : test ∈ nodes) :
      ArisesIn nodes ⟨.testNotBoolean found
        (Expr.conditional place test thenBranch elseBranch).text, test.range⟩
  /-- The whole `letrec` is quoted and a value that is no lambda is the place. -/
  | letrecNonProcedure (here : .letrecForm place bindings body ∈ nodes)
      (bound : binding ∈ bindings) (value : binding.value ∈ nodes)
      (other : ∀ range params result inner, binding.value ≠ .lambda range params result inner) :
      ArisesIn nodes ⟨.letrecNonProcedure (Expr.letrecForm place bindings body).text,
        binding.value.range⟩
  /-- A lambda that a `letrec` binds is not entered, so the place of the `letrec` is reported. -/
  | emptyBody (here : holder ∈ nodes) (inside : node ∈ nodes) (empty : node.body? = some []) :
      ArisesIn nodes ⟨.emptySequence, holder.range⟩

variable {nodes : List Expr} {error : TypeError}

/-- The place is that of a node. -/
theorem ArisesIn.placed (arises : error.ArisesIn nodes) :
    ∃ node ∈ nodes, error.range = node.range := by
  cases arises with
  | unbound here | unimplemented here | nonProcedure here | arityMismatch here =>
    exact ⟨_, here, rfl⟩
  | incompatible here | emptyBody here => exact ⟨_, here, rfl⟩
  | testNotBoolean _ tested => exact ⟨_, tested, rfl⟩
  | letrecNonProcedure _ _ value => exact ⟨_, value, rfl⟩

theorem ArisesIn.bindings_even (arises : error.ArisesIn nodes) : error.cause ≠ .unevenBindings := by
  cases arises <;> exact nofun

/-- Without an empty body no sequence is empty. -/
theorem ArisesIn.sequence_filled (arises : error.ArisesIn nodes)
    (filled : ∀ node ∈ nodes, node.body? ≠ some []) : error.cause ≠ .emptySequence := by
  cases arises with
  | emptyBody _ inside empty => exact absurd empty (filled _ inside)
  | _ => exact nofun

end TypeError

/-! ## Checks -/

namespace Check

/-- Every value of the check meets the condition and every error arises in the nodes. -/
def Reports (nodes : List Expr) (holds : α → Prop) (check : Check α) : Prop :=
  ∀ count, (∀ value, (check count).result = .ok value → holds value) ∧
    ∀ error, (check count).result = .error error → error.ArisesIn nodes

variable {nodes : List Expr} {holds : α → Prop} {context : Context}

theorem reports_pure (value : holds result) : (pure result : Check α).Reports nodes holds :=
  fun _ => ⟨fun _ same => by cases same; exact value, nofun⟩

theorem reports_fail {cause : TypeError.Cause}
    (arises : TypeError.ArisesIn nodes ⟨cause, context.range⟩) :
    (context.fail cause : Check α).Reports nodes holds :=
  fun _ => ⟨nofun, fun _ failed => by cases failed; exact arises⟩

theorem reports_bind {first : Check α} {next : α → Check β} {later : β → Prop}
    (firstReports : first.Reports nodes holds)
    (nextReports : ∀ value, holds value → (next value).Reports nodes later) :
    (first >>= next).Reports nodes later := by
  intro count
  obtain ⟨value, arises⟩ := firstReports count
  refine bind_elim (motive := fun outcome =>
      (∀ value, outcome.result = .ok value → later value) ∧
        ∀ error, outcome.result = .error error → error.ArisesIn nodes)
    (fun error created events ended => ?_) fun result created events ended => ?_
  · refine ⟨fun _ succeeded => ?_, fun _ failed => ?_⟩
    · cases succeeded
    · cases failed
      exact arises error (by rw [ended])
  · exact nextReports result (value result (by rw [ended])) _

theorem reports_demand {check : Check Unit} {met : Bool} {error : TypeError}
    {entries : List Event} {holds : Unit → Prop}
    (ended : ∀ count, check count = ⟨if met then .ok () else .error error, [], entries⟩)
    (arises : error.ArisesIn nodes) (value : holds ()) : check.Reports nodes holds := by
  intro count
  rw [ended]
  cases met with
  | true => exact ⟨fun _ _ => value, nofun⟩
  | false => exact ⟨nofun, fun _ failed => by cases failed; exact arises⟩

theorem reports_lookup {holds : Ty → Prop} {name : String}
    (here : .identifier context.range name ∈ nodes) (value : ∀ type, holds type) :
    (context.lookup name).Reports nodes holds := by
  rcases context.lookup_cases name with ⟨type, _, isPure⟩ | ⟨_, isFail⟩
  · rw [isPure]
    exact reports_pure (value type)
  · rw [isFail]
    exact reports_fail (.unbound here)

theorem reports_primitive {holds : Ty → Prop} {name : String}
    (here : .primitive context.range name ∈ nodes) (value : ∀ type, holds type) :
    (context.primitive name).Reports nodes holds := by
  rcases context.primitive_cases name with ⟨primitive, _, isSignature⟩ | ⟨_, isFail⟩
  · intro count
    obtain ⟨type, ended⟩ := primitive.signature_outcome count
    rw [isSignature, ended]
    exact ⟨fun found _ => value found, nofun⟩
  · rw [isFail]
    exact reports_fail (.unimplemented here)

theorem reports_procedure {operator : Expr} {operands : List Expr} {type : Ty}
    {holds : List Ty × Ty → Prop}
    (here : .application context.range operator operands ∈ nodes)
    (value : ∀ found, found.1.length = operands.length → holds found) :
    (context.demandProcedure type operands.length fun _ =>
      (Expr.application context.range operator operands).text).Reports nodes holds := by
  rcases context.demandProcedure_cases type operands.length fun _ =>
    (Expr.application context.range operator operands).text with
    ⟨params, result, _, fits, isPure⟩ | ⟨params, _, _, _, isFail⟩ | ⟨_, isFail⟩
  · rw [isPure]
    exact reports_pure (value (params, result) fits)
  · rw [isFail]
    exact reports_fail (.arityMismatch here)
  · rw [isFail]
    exact reports_fail (.nonProcedure here)

end Check

theorem Binding.value_ne_lambda {binding : Binding} (unsigned : binding.signature? = none)
    (range : Range) (params : List TypedVar) (result : Ascription) (inner : List Expr) :
    binding.value ≠ .lambda range params result inner := by
  cases binding with
  | mk var value =>
    rintro rfl
    cases unsigned

open Check Checking TypedForms.Expr

/-- The context stands at the node that is being checked whenever one of its own rules fails, so the
steps report errors that arise in the nodes. -/
def TypeError.reportedSteps (nodes : List Expr) : StepRelation Check Check Unit where
  trees := .same (· ∈ nodes)
  types := .any
  tally := .unit
  lawful := Tally.unit_lawful
  Rel now _ _ _ values check _ := check.Reports nodes fun value => ∃ other, values now value other
  ascribed _ _ := trivial
  pure value := reports_pure ⟨_, value⟩
  bind first next := reports_bind first fun _ ⟨_, value⟩ => next _ _ _ (Nat.le_refl _) value
  enter _ next := next
  within _ next := next
  primitive node _ _ := reports_primitive node.1 fun type => ⟨type, trivial⟩
  lookup node _ _ := reports_lookup node.1 fun type => ⟨type, trivial⟩
  boolean node test _ := reports_demand (Context.demandBoolean_outcome _ _ _)
    (.testNotBoolean node.1 test.1) ⟨(), trivial⟩
  applied node _ _ := reports_procedure node.1 fun found fits =>
    ⟨found, fits, List.forall₂_same.mpr fun _ _ => trivial, trivial⟩
  compared node placed _ _ := by
    refine reports_demand (Context.demandCompatible_outcome _ _ _ _) ?_ ⟨(), trivial⟩
    rw [placed]
    exact .incompatible node.1
  empty node placed _ inside isBody := by
    refine reports_fail ?_
    rw [placed]
    exact .emptyBody node.1 inside isBody
  refused node bound inside unsigned :=
    reports_fail (.letrecNonProcedure node.1 bound inside (Binding.value_ne_lambda unsigned))

/-- The rules report errors that arise in the nodes. -/
def TypeError.reported (nodes : List Expr) : RuleRelation Check Check Unit :=
  (reportedSteps nodes).rules Tally.unit_inSequence fun _ next => by
    rw [Context.declare_eq]
    exact next

/-- The errors of an expression arise in its nodes. -/
theorem Expr.infer_reports (expr : Expr) (outer : Context) (count : Nat) {error : TypeError}
    (failed : (expr.infer outer count).result = .error error) : error.ArisesIn expr.nodes :=
  ((TypeError.reported expr.nodes).relates_expr (fun _ inside => inside) 0 outer outer
    count).2 error failed

/-! ## Programs -/

/-- The program is not empty and neither is any body in it. -/
structure Program.Filled (program : Program) : Prop where
  nonempty : program ≠ []
  bodies : ∀ node ∈ nodesAll program, node.body? ≠ some []

theorem Program.infer_reports {program : Program} (nonempty : program ≠ []) {context : Context}
    {count : Nat} {error : TypeError}
    (failed : (Program.infer program context count).result = .error error) :
    error.ArisesIn (nodesAll program) := by
  have listed : ∀ expr ∈ program, expr.All (· ∈ nodesAll program) := by
    intro expr member node inside
    rw [nodesAll_eq_flatMap]
    exact List.mem_flatMap.mpr ⟨expr, member, inside⟩
  exact ((TypeError.reported (nodesAll program)).relates_exprs listed 0 context context
    (fun empty => absurd empty nonempty) count).2 error failed

/-- An empty program fails where the check begins. -/
theorem Program.infer_bindings_even (program : Program) (context : Context) (count : Nat)
    (place : Range) :
    (Program.infer program context count).result ≠ .error ⟨.unevenBindings, place⟩ := by
  by_cases empty : program = []
  · subst empty
    exact nofun
  · intro failed
    exact (Program.infer_reports empty failed).bindings_even rfl

theorem Program.filled_of_parse {source : String} {program : Program}
    (parsed : Program.parse source = .ok program) : program.Filled := by
  obtain ⟨nonempty, wellFormed⟩ := program_parse_well_formed parsed
  refine ⟨nonempty, fun node inside => ?_⟩
  rw [nodesAll_eq_flatMap] at inside
  obtain ⟨expr, member, inside⟩ := List.mem_flatMap.mp inside
  have formed := wellFormed expr member node inside
  cases node with
  | lambda => exact fun empty => formed.2.2 (Option.some.inj empty)
  | letForm | letrecForm => exact fun empty => formed.2 (Option.some.inj empty)
  | _ => exact nofun

/-- No check finds names and types that are not equally many.  When the program and the bodies in
it are not empty, as in every program that has been parsed, an error is never about an empty
sequence, its place is that of a node and it arises from the nodes of the program. -/
theorem checker_errors_traced :
    (∀ (expr : Expr) (context : Context) (count : Nat) (place : Range),
      (expr.infer context count).result ≠ .error ⟨.unevenBindings, place⟩) ∧
    (∀ (program : Program) (context : Context) (count : Nat) (place : Range),
      (Program.infer program context count).result ≠ .error ⟨.unevenBindings, place⟩) ∧
    (∀ (source : String) (program : Program), Program.parse source = .ok program →
      program.Filled) ∧
    ∀ (program : Program) (context : Context) (count : Nat) (error : TypeError), program.Filled →
      (Program.infer program context count).result = .error error →
      error.cause ≠ .emptySequence ∧ (∃ node ∈ nodesAll program, error.range = node.range) ∧
        error.ArisesIn (nodesAll program) := by
  refine ⟨fun expr context count place failed => ?_, Program.infer_bindings_even,
    fun _ _ => Program.filled_of_parse, fun program context count error filled failed => ?_⟩
  · exact (expr.infer_reports context count failed).bindings_even rfl
  · have arises := Program.infer_reports filled.nonempty failed
    exact ⟨arises.sequence_filled filled.bodies, arises.placed, arises⟩

/-- The test inside a lambda that a `letrec` binds is a procedure. -/
theorem recursive_test_traced :
    let source := "(letrec (((f : T) (lambda () : T (if f 1 2)))) f)"
    let error : TypeError := ⟨.testNotBoolean (.proc [] (.var "T")) "(if f 1 2)", ⟨37, 38⟩⟩
    let program : Program := [.letrecForm ⟨0, 49⟩ [.mk ⟨"f", .named ⟨15, 16⟩ "T"⟩
      (.lambda ⟨18, 44⟩ [] (.named ⟨31, 32⟩ "T") [.conditional ⟨33, 43⟩ (.identifier ⟨37, 38⟩ "f")
        (.number ⟨39, 40⟩ (Number.ofNumeral ['1'])) (.number ⟨41, 42⟩ (Number.ofNumeral ['2']))])]
      [.identifier ⟨47, 48⟩ "f"]]
    Program.parse source = .ok program ∧ program.check.result = .error error ∧
      error.cause ≠ .emptySequence ∧ (∃ node ∈ nodesAll program, error.range = node.range) ∧
      error.ArisesIn (nodesAll program) := by
  intro source error program
  have parsed : Program.parse source = .ok program := by
    simp only [source, program]
    rfl
  have failed : program.check.result = .error error := by decide +kernel
  obtain ⟨_, _, fills, traced⟩ := checker_errors_traced
  exact ⟨parsed, failed, traced program .empty 0 error (fills source program parsed) failed⟩

end TypedForms
