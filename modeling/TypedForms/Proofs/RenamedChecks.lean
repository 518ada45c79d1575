import TypedForms.Proofs.NormalChecks
import TypedForms.Proofs.RelatedChecks
import TypedForms.Proofs.RenamedTypes

/-! Checking a program whose type variables have been renamed.

The check of the renamed program runs alongside the check of the program: the
types that it finds are the renamed types, its contexts are the renamed contexts,
and it fails when and where the other does.  The names that it creates are the
renamed names, so the renaming has to agree with the order in which names are
created.
-/
namespace TypedForms

/-! ## Renamed trees -/

/-- The variable with the variables of its type renamed. -/
def TypedVar.rename (renamer : Renaming) (var : TypedVar) : TypedVar :=
  ⟨var.name, var.type.rename renamer⟩

namespace Expr

mutual

/-- The expression with the variables of all its ascriptions renamed.  Places stay as they are. -/
def rename (renamer : Renaming) : Expr → Expr
  | .conditional range test thenBranch elseBranch =>
    .conditional range (test.rename renamer) (thenBranch.rename renamer) (elseBranch.rename renamer)
  | .lambda range params result body =>
    .lambda range (params.map (TypedVar.rename renamer)) (result.rename renamer)
      (renameAll renamer body)
  | .application range operator operands =>
    .application range (operator.rename renamer) (renameAll renamer operands)
  | .letForm range bindings body =>
    .letForm range (renameBindings renamer bindings) (renameAll renamer body)
  | .letrecForm range bindings body =>
    .letrecForm range (renameBindings renamer bindings) (renameAll renamer body)
  | .define range var value => .define range (var.rename renamer) (value.rename renamer)
  | expr => expr

/-- The expressions of a list with their ascriptions renamed. -/
def renameAll (renamer : Renaming) : List Expr → List Expr
  | [] => []
  | first :: rest => first.rename renamer :: renameAll renamer rest

/-- The bindings of a list with their ascriptions renamed. -/
def renameBindings (renamer : Renaming) : List Binding → List Binding
  | [] => []
  | .mk var value :: rest =>
    .mk (var.rename renamer) (value.rename renamer) :: renameBindings renamer rest

end

end Expr

/-- The binding with its ascriptions renamed. -/
def Binding.rename (renamer : Renaming) (binding : Binding) : Binding :=
  .mk (binding.var.rename renamer) (binding.value.rename renamer)

/-- The program with the variables of all its ascriptions renamed. -/
def Program.rename (renamer : Renaming) (program : Program) : Program :=
  program.map (Expr.rename renamer)

section Trees

variable {renamer : Renaming}

theorem Expr.renameAll_eq_map (list : List Expr) :
    renameAll renamer list = list.map (rename renamer) := by
  induction list with
  | nil => rfl
  | cons first rest ih => simp [renameAll, ih]

theorem Expr.renameBindings_eq_map (list : List Binding) :
    renameBindings renamer list = list.map (Binding.rename renamer) := by
  induction list with
  | nil => rfl
  | cons first rest ih =>
    obtain ⟨var, value⟩ := first
    simp [renameBindings, ih, Binding.rename, Binding.var, Binding.value]

theorem Expr.range_rename (expr : Expr) : (expr.rename renamer).range = expr.range := by
  cases expr <;> rfl

end Trees

/-- Trees with admissible ascriptions, side by side with their renamed copies. -/
def TreePairing.renamed (renamer : Renaming) : TreePairing where
  Good := Expr.AdmissibleAt
  place := id
  ascription := Ascription.rename renamer
  expr := Expr.rename renamer
  parts tree := by
    have vars : TypedVar.mapType (Ascription.rename renamer) = TypedVar.rename renamer := rfl
    have bindings : Binding.mapParts (Ascription.rename renamer) (Expr.rename renamer) =
        Binding.rename renamer := rfl
    cases tree <;>
      simp [Expr.rename, Expr.mapParts, Expr.renameAll_eq_map, Expr.renameBindings_eq_map, vars,
        bindings]

/-! ## Renamed contexts and errors -/

/-- The context with the variables of all types in it renamed. -/
def Context.rename (renamer : Renaming) (context : Context) : Context :=
  { context with bindings := context.bindings.map fun pair => (pair.1, pair.2.rename renamer) }

/-- The cause with the types that it shows renamed and another text of the expression. -/
def TypeError.Cause.rename (renamer : Renaming) (text : String) : TypeError.Cause → TypeError.Cause
  | .testNotBoolean found _ => .testNotBoolean (found.rename renamer) text
  | .incompatible left right _ => .incompatible (left.rename renamer) (right.rename renamer) text
  | .nonProcedure found _ => .nonProcedure (found.rename renamer) text
  | .arityMismatch expected found _ => .arityMismatch expected found text
  | .letrecNonProcedure _ => .letrecNonProcedure text
  | cause => cause

namespace Context

variable {renamer : Renaming} {context : Context}

theorem rename_extendPairs (pairs : List (String × Ty)) :
    (context.extendPairs pairs).rename renamer =
      (context.rename renamer).extendPairs
        (pairs.map fun pair => (pair.1, pair.2.rename renamer)) := by
  simp [rename, extendPairs]

theorem lookup_rename (name : String) :
    (context.rename renamer).lookup? name =
      (context.lookup? name).map (Ty.rename renamer) := by
  obtain ⟨bindings, range⟩ := context
  simp only [rename, lookup?]
  induction bindings with
  | nil => rfl
  | cons pair rest ih =>
    obtain ⟨bound, type⟩ := pair
    simp only [List.map_cons, List.lookup_cons, ih]
    split <;> rfl

end Context

/-! ## Checks that run alike -/

namespace Renaming

/-- The names created from two counts on correspond, and errors differ in the names of the types
that they show only. -/
def likeness (renamer : Renaming) : Likeness where
  counts left right := ∀ n, renamer.apply (generatedName (left + n)) = generatedName (right + n)
  created := .sameLength
  events := .any
  errors left right := ∃ text, right = ⟨left.cause.rename renamer text, left.range⟩
  later inStep names n := by
    rw [← names, Nat.add_assoc, Nat.add_assoc]
    exact inStep (_ + n)

/-- The second type is the first one renamed. -/
def Carries (renamer : Renaming) (left right : Ty) : Prop :=
  left.Readable ∧ right = left.rename renamer

/-- Readable types, related to the renamed ones. -/
def types (renamer : Renaming) : TypePairing :=
  .readable (Ty.rename renamer) Ty.rename_atomic Ty.rename_join
    (by simp [Ty.rename, Ty.renameAll_eq_map])

end Renaming

namespace Check

variable {renamer : Renaming}

theorem related_newVar : newVar.Related renamer.likeness renamer.Carries newVar := by
  intro count other inStep
  refine ⟨rfl, trivial, .ok ⟨Ty.readable_var.mpr (generatedName_legal count), ?_⟩⟩
  exact congrArg Ty.var (inStep 0).symm

theorem related_signature (primitive : Primitive) :
    primitive.signature.Related renamer.likeness renamer.Carries primitive.signature := by
  have number : Ty.number.Readable := Ty.atomic_readable rfl
  have boolean : Ty.boolean.Readable := Ty.atomic_readable rfl
  have void : Ty.void.Readable := Ty.atomic_readable rfl
  cases primitive with
  | arithmetic | comparison | connective | negation | newline =>
    exact related_pure ⟨Ty.readable_proc.mpr (by simp [number, boolean, void]), rfl⟩
  | predicate | display =>
    refine related_bind related_newVar ?_
    rintro param _ ⟨readable, rfl⟩
    exact related_pure ⟨Ty.readable_proc.mpr (by simp [readable, boolean, void]), rfl⟩
  | equality =>
    refine related_bind related_newVar ?_
    rintro first _ ⟨firstReadable, rfl⟩
    refine related_bind related_newVar ?_
    rintro second _ ⟨secondReadable, rfl⟩
    exact related_pure
      ⟨Ty.readable_proc.mpr (by simp [firstReadable, secondReadable, boolean]), rfl⟩

end Check

open Check

/-- The second check goes on in the renamed copy of the first one's context.  All types of the first
are readable, which is what keeps their copies apart. -/
def Renaming.steps (renamer : Renaming) : StepRelation Check Check Unit where
  trees := .renamed renamer
  types := renamer.types
  tally := .unit
  lawful := Tally.unit_lawful
  Rel now _ context other values left right :=
    context.Readable → other = context.rename renamer →
      left.Related renamer.likeness (values now) right
  ascribed good listed := ⟨Ty.ofAscription_readable (good _ listed),
    Ty.ofAscription_rename (good _ listed)⟩
  pure value _ _ := related_pure value
  bind first next readable same := related_bind (first readable same) fun _ _ value =>
    next _ _ _ (Nat.le_refl _) value readable same
  enter {_ _ _ _ context _ _ node _ _ _} pair next readable same := by
    obtain ⟨_, rfl⟩ := pair
    refine related_log trivial (next readable ?_)
    rw [same]
    exact congrArg (Context.moveTo _) node.range_rename
  within {_ _ _ _ context _ _ pairs _ _ _} bound next readable same := by
    obtain ⟨pairsReadable, rfl⟩ := TypePairing.bound_image bound
    refine next (readable.extendPairs pairsReadable) ?_
    rw [same, Context.rename_extendPairs]
  primitive _ _ _ _ same := by
    subst same
    exact related_primitive (fun primitive _ => related_signature primitive) ⟨"", rfl⟩
  lookup {_ _ context _ name _} _ _ _ readable same := by
    subst same
    refine related_lookup ?_ ⟨"", rfl⟩
    rw [Context.lookup_rename]
    cases found : context.lookup? name with
    | some type => exact .some ⟨readable.lookup found, rfl⟩
    | none => exact .none
  boolean {_ _ _ _ _ test _ _ _ _ _ _} _ pair computed _ _ := by
    obtain ⟨_, rfl⟩ := pair
    obtain ⟨readable, rfl⟩ := computed
    exact related_demand (Context.demandBoolean_outcome _ _ _)
      (Context.demandBoolean_outcome _ _ _)
      (Ty.compatible_rename readable (Ty.atomic_readable rfl)).symm trivial
      ⟨_, congrArg (TypeError.mk _) test.range_rename⟩ trivial
  applied {_ _ _ _ _ operands _ type _} _ _ computed _ same := by
    subst same
    obtain ⟨readable, rfl⟩ := computed
    refine related_procedure (fun params result isProc => ?_) (fun no params result isProc => ?_)
      (fun _ => ⟨_, rfl⟩) ⟨_, rfl⟩
    · subst isProc
      obtain ⟨paramsReadable, resultReadable⟩ := Ty.readable_proc.mp readable
      refine ⟨_, _, rfl, Ty.length_renameAll params, fun fits => ⟨fits, ?_, resultReadable, rfl⟩⟩
      exact TypePairing.forall₂_image.mpr ⟨paramsReadable, Ty.renameAll_eq_map params⟩
    · cases type with
      | proc params result => exact no params result rfl
      | _ => cases isProc
  compared _ _ _ comparable _ same := by
    subst same
    obtain ⟨⟨_, _, leftReadable, rfl⟩, _, _, rightReadable, rfl⟩ := comparable.both
    exact related_demand (Context.demandCompatible_outcome _ _ _ _)
      (Context.demandCompatible_outcome _ _ _ _)
      (Ty.compatible_rename leftReadable rightReadable).symm trivial ⟨_, rfl⟩ trivial
  empty _ _ _ _ _ _ same := by
    subst same
    exact related_fail ⟨"", rfl⟩
  refused {_ _ _ _ _ _ _ _ _ _ _ binding} _ _ _ _ _ _ :=
    related_fail ⟨_, congrArg (TypeError.mk _) binding.value.range_rename⟩

/-- The check of a renamed tree runs alongside the check of the tree. -/
def Renaming.rules (renamer : Renaming) : RuleRelation Check Check Unit :=
  renamer.steps.rules Tally.unit_inSequence fun bound next readable same => by
    obtain ⟨pairsReadable, isRenamed⟩ := TypePairing.bound_image bound
    refine related_declare trivial (next (readable.extendPairs pairsReadable) ?_)
    rw [same, Context.rename_extendPairs, isRenamed]

/-- A definition binds a readable type, and the renamed one binds the renamed type. -/
theorem Expr.definition_rename {expr : Expr} (renamer : Renaming) (admissible : expr.Admissible) :
    (∀ pair ∈ expr.definition, pair.2.Readable) ∧
      (expr.rename renamer).definition =
        expr.definition.map fun pair => (pair.1, pair.2.rename renamer) :=
  TypePairing.bound_image (renamer.steps.bound_definition admissible)

theorem Expr.infer_related (expr : Expr) (renamer : Renaming) (outer : Context)
    (admissible : expr.Admissible) (readable : outer.Readable) :
    (expr.infer outer).Related renamer.likeness renamer.Carries
      ((expr.rename renamer).infer (outer.rename renamer)) :=
  renamer.rules.relates_expr admissible 0 outer _ readable rfl

theorem Program.infer_related (program : Program) (renamer : Renaming) (context : Context)
    (admissible : ∀ expr ∈ program, expr.Admissible) (readable : context.Readable) :
    (Program.infer program context).Related renamer.likeness renamer.Carries
      (Program.infer (program.rename renamer) (context.rename renamer)) := by
  have sequence := renamer.rules.relates_exprs admissible 0 context
    (context.rename renamer) (fun _ _ _ => related_fail ⟨"", rfl⟩) readable rfl
  exact related_log trivial sequence

/-- Type variables are only compared: a renaming that leaves the names alone that checks create can
be done before or after the check.  The renamed program has the renamed type, its unions sorted
again, or it fails at the same place with the same error about renamed types. -/
theorem renamed_programs_check_alike (program : Program) (renamer : Renaming)
    (admissible : ∀ expr ∈ program, expr.Admissible)
    (fixed : ∀ n, renamer.apply (generatedName n) = generatedName n) :
    (∀ type, (program.rename renamer).check.result = .ok type ↔
      ∃ old, program.check.result = .ok old ∧ type = old.rename renamer) ∧
    ∀ error, program.check.result = .error error →
      ∃ text, (program.rename renamer).check.result =
        .error ⟨error.cause.rename renamer text, error.range⟩ := by
  have empty : Context.empty.Readable := by simp [Context.Readable, Context.empty]
  have ran := (program.infer_related renamer .empty admissible empty 0 0
    fun n => by simpa using fixed n).result
  change renamer.likeness.Results renamer.Carries program.check.result
    (program.rename renamer).check.result at ran
  generalize program.check.result = result at ran ⊢
  generalize (program.rename renamer).check.result = renamed at ran ⊢
  cases ran with
  | ok related =>
    obtain ⟨_, rfl⟩ := related
    exact ⟨fun type => by simp [eq_comm], nofun⟩
  | error alike =>
    obtain ⟨text, rfl⟩ := alike
    exact ⟨fun type => by simp, fun error same => by cases same; exact ⟨text, rfl⟩⟩

/-- Exchanging two names moves a variable behind the other member of its union.  What could not be
applied cannot be applied afterwards. -/
theorem exchanged_names_check_alike :
    let exchange := Renaming.exchange "a" "x" (by decide) (by decide)
    let either : Ascription := .union .origin [.number .origin, .named .origin "a"]
    let same : Expr := .lambda .origin [⟨"v", either⟩] either [.identifier .origin "v"]
    let accepted : Program := [same]
    let refused : Program := [.application .origin same [.string .origin "a"]]
    (accepted.rename exchange).check.result =
        .ok (.proc [.union [.number, .var "x"]] (.union [.number, .var "x"])) ∧
      ∃ text, (refused.rename exchange).check.result =
        .error ⟨.incompatible (.union [.number, .var "x"]) .string text, .origin⟩ := by
  intro exchange either same accepted refused
  have legal : Token.LegalName "a" := by decide
  have eitherAdmissible : either.Admissible := by
    simp [either, Ascription.Admissible, Ascription.All, Ascription.nodes, Ascription.AdmissibleAt,
      legal]
  have acceptedAdmissible : ∀ expr ∈ accepted, expr.Admissible := by
    simp [accepted, same, Expr.Admissible, Expr.All, Expr.nodes, Expr.ownAscriptions,
      eitherAdmissible]
  have refusedAdmissible : ∀ expr ∈ refused, expr.Admissible := by
    simp [refused, same, Expr.Admissible, Expr.All, Expr.nodes, Expr.ownAscriptions,
      eitherAdmissible]
  have fixed : ∀ n, exchange.apply (generatedName n) = generatedName n := by
    intro n
    refine Equiv.swap_apply_of_ne_of_ne (fun same => ?_) fun same => ?_
    · simpa [generatedName] using congrArg String.toList same
    · simpa [generatedName] using congrArg String.toList same
  have sorted : (Ty.union [.var "a", .number]).rename exchange = .union [.number, .var "x"] := by
    decide
  have found : accepted.check.result =
      .ok (.proc [.union [.var "a", .number]] (.union [.var "a", .number])) := rfl
  have missed : refused.check.result = .error ⟨.incompatible (.union [.var "a", .number]) .string
      (Expr.application .origin same [.string .origin "a"]).text, .origin⟩ := rfl
  obtain ⟨accepts, _⟩ := renamed_programs_check_alike accepted exchange acceptedAdmissible fixed
  obtain ⟨_, refuses⟩ := renamed_programs_check_alike refused exchange refusedAdmissible fixed
  obtain ⟨text, again⟩ := refuses _ missed
  refine ⟨(accepts _).mpr ⟨_, found, ?_⟩, text, ?_⟩
  · rw [Ty.rename, Ty.renameAll, Ty.renameAll, sorted]
  · rw [again, TypeError.Cause.rename, sorted]
    rfl

end TypedForms
