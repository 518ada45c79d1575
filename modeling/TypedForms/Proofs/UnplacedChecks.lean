import TypedForms.Checker
import TypedForms.Proofs.NormalTypes
import TypedForms.Proofs.RelatedChecks

/-! Places have no influence on a check.

The checker carries the place of the node that it is checking and uses it only to
say where an error is.  So the check of a tree without its places runs alongside
the check of the tree: both find the same type or fail for the same cause.
-/
namespace TypedForms

/-! ## Trees without places -/

private theorem map_of_bare {bare : α → α} {view : α → β} {items : List α}
    (same : ∀ item ∈ items, view (bare item) = view item) :
    (items.map bare).map view = items.map view := by
  rw [List.map_map]
  exact List.map_congr_left same

theorem Ascription.text_unplaced (ascription : Ascription) :
    ascription.unplaced.text = ascription.text := by
  induction ascription with
  | number | boolean | string | void | named => rfl
  | proc place params result paramTexts resultText =>
    cases params with
    | nil => simp only [unplaced, unplacedAll, text, resultText]
    | cons param params =>
      obtain ⟨paramText, laterTexts⟩ := List.forall_mem_cons.mp paramTexts
      simp only [unplaced, unplacedAll, unplacedAll_eq_map, text, texts_eq_map, paramText,
        map_of_bare laterTexts, resultText]
  | union place members memberTexts =>
    simp only [unplaced, unplacedAll_eq_map, text, texts_eq_map, map_of_bare memberTexts]

namespace TypedVar

theorem text_unplaced (var : TypedVar) : var.unplaced.text = var.text := by
  simp only [text, unplaced, var.type.text_unplaced]

end TypedVar

private theorem bindingTexts_unplaced {bindings : List Binding}
    (same : ∀ binding ∈ bindings, binding.value.unplaced.text = binding.value.text) :
    Expr.bindingTexts (bindings.map Binding.unplaced) = Expr.bindingTexts bindings := by
  rw [Expr.bindingTexts_eq_map, Expr.bindingTexts_eq_map]
  refine map_of_bare fun binding listed => ?_
  have varText : binding.unplaced.var.text = binding.var.text := binding.var.text_unplaced
  have valueText : binding.unplaced.value.text = binding.value.text := same binding listed
  rw [varText, valueText]

theorem Expr.text_unplaced (expr : Expr) : expr.unplaced.text = expr.text := by
  induction expr with
  | number | boolean | string | identifier | primitive => rfl
  | conditional place test thenBranch elseBranch testText thenText elseText =>
    simp only [unplaced, text, testText, thenText, elseText]
  | lambda place params result body bodyTexts =>
    have paramTexts := map_of_bare fun param (_ : param ∈ params) => param.text_unplaced
    simp only [unplaced, unplacedAll_eq_map, text, texts_eq_map, paramTexts,
      result.text_unplaced, map_of_bare bodyTexts]
  | application place operator operands operatorText operandTexts =>
    cases operands with
    | nil => simp only [unplaced, unplacedAll, text, operatorText]
    | cons operand operands =>
      obtain ⟨operandText, laterTexts⟩ := List.forall_mem_cons.mp operandTexts
      simp only [unplaced, unplacedAll, unplacedAll_eq_map, text, texts_eq_map, operatorText,
        operandText, map_of_bare laterTexts]
  | letForm place bindings body valueTexts bodyTexts
  | letrecForm place bindings body valueTexts bodyTexts =>
    simp only [unplaced, unplacedAll_eq_map, unplacedBindings_eq_map, text, texts_eq_map,
      bindingTexts_unplaced valueTexts, map_of_bare bodyTexts]
  | define place var value valueText =>
    simp only [unplaced, text, var.text_unplaced, valueText]

/-- Trees side by side with their copies without places. -/
def TreePairing.unplaced : TreePairing where
  Good _ := True
  place _ := .origin
  ascription := Ascription.unplaced
  expr := Expr.unplaced
  parts tree := by
    have vars : TypedVar.mapType Ascription.unplaced = TypedVar.unplaced := rfl
    have bindings : Binding.mapParts Ascription.unplaced Expr.unplaced = Binding.unplaced := rfl
    cases tree <;> simp [Expr.unplaced, Expr.mapParts, vars, bindings]

/-! ## Checks that run alike -/

/-- As many names have been created, and errors have the same cause at any places. -/
def Likeness.upToPlaces : Likeness where
  counts := Eq
  created := .sameLength
  events := .any
  errors left right := left.cause = right.cause
  later counts names := by rw [counts, names]

theorem Check.related_signature_upToPlaces (primitive : Primitive) :
    primitive.signature.Related .upToPlaces Eq primitive.signature := by
  rintro count _ rfl
  obtain ⟨type, ended⟩ := primitive.signature_outcome count
  rw [ended]
  exact ⟨rfl, trivial, .ok rfl⟩

open Check

/-- The two contexts hold the same bindings and stand at different places throughout. -/
def Likeness.placelessSteps : StepRelation Check Check Unit where
  trees := .unplaced
  types := .same
  tally := .unit
  lawful := Tally.unit_lawful
  Rel now _ context other values left right :=
    context.bindings = other.bindings → left.Related .upToPlaces (values now) right
  ascribed {_ own} _ _ := (Ty.ofAscription_unplaced own).symm
  pure value _ := related_pure value
  bind first next same :=
    related_bind (first same) fun _ _ value => next _ _ _ (Nat.le_refl _) value same
  enter _ next same := related_log trivial (next same)
  within bound next same := by
    obtain rfl := TypePairing.eq_of_bound bound
    exact next (congrArg (_ ++ ·) same)
  primitive _ _ _ _ :=
    related_primitive (fun primitive _ => related_signature_upToPlaces primitive) rfl
  lookup {_ _ context other name _} _ _ _ same := by
    refine related_lookup ?_ rfl
    rw [Context.lookup?, Context.lookup?, same]
    cases other.bindings.lookup name with
    | some type => exact .some rfl
    | none => exact .none
  boolean node _ computed _ := by
    obtain ⟨_, rfl⟩ := node
    obtain rfl := computed
    exact related_demand (Context.demandBoolean_outcome _ _ _) (Context.demandBoolean_outcome _ _ _)
      rfl trivial (congrArg (TypeError.Cause.testNotBoolean _) (Expr.text_unplaced _).symm) trivial
  applied {_ _ context other operator operands _ type _} node _ computed _ := by
    obtain ⟨_, rfl⟩ := node
    obtain rfl := computed
    have texts := (Expr.application context.range operator operands).text_unplaced.symm
    refine related_procedure (fun params result isProc => ⟨params, result, isProc, rfl, ?_⟩) id
      (fun expected => congrArg (TypeError.Cause.arityMismatch expected _) texts)
      (congrArg (TypeError.Cause.nonProcedure type) texts)
    exact fun fits => ⟨fits, List.forall₂_same.mpr fun _ _ => rfl, rfl⟩
  compared {_ _ _ node _ _ _ _ _} pair _ _ comparable _ := by
    obtain ⟨_, rfl⟩ := pair
    obtain ⟨⟨_, _, rfl⟩, _, _, rfl⟩ := comparable.both
    exact related_demand (Context.demandCompatible_outcome _ _ _ _)
      (Context.demandCompatible_outcome _ _ _ _) rfl trivial
      (congrArg (TypeError.Cause.incompatible _ _) node.text_unplaced.symm) trivial
  empty _ _ _ _ _ _ := related_fail rfl
  refused node _ _ _ _ := by
    obtain ⟨_, rfl⟩ := node
    exact related_fail (congrArg TypeError.Cause.letrecNonProcedure (Expr.text_unplaced _).symm)

/-- The check of a tree without its places runs alongside the check of the tree. -/
def Likeness.placeless : RuleRelation Check Check Unit :=
  placelessSteps.rules Tally.unit_inSequence fun bound next same => by
    refine related_declare trivial (next ?_)
    rw [TypePairing.eq_of_bound bound]
    exact congrArg (_ ++ ·) same

theorem Expr.infer_unplaced (expr : Expr) {outer other : Context}
    (same : outer.bindings = other.bindings) :
    (expr.infer outer).Related .upToPlaces Eq (expr.unplaced.infer other) :=
  Likeness.placeless.relates_expr (fun _ _ => trivial) 0 outer other same

theorem inferSequence_unplaced (exprs : List Expr) {context other : Context}
    (same : context.bindings = other.bindings) :
    (inferSequence exprs context).Related .upToPlaces Eq
      (inferSequence (exprs.map Expr.unplaced) other) :=
  Likeness.placeless.relates_exprs (fun _ _ _ _ => trivial) 0 context other
    (fun _ _ => related_fail rfl) same

/-- What a check finds, with an error reduced to its cause. -/
def Outcome.finding (outcome : Outcome α) : Except TypeError.Cause α :=
  outcome.result.mapError TypeError.cause

/-- A program without its places has the same type or fails for the same cause. -/
theorem Program.check_unplaced (program : Program) :
    program.check.finding = (Program.check (program.map Expr.unplaced)).finding := by
  have ran := inferSequence_unplaced program (show Context.empty.bindings = _ from rfl)
  have whole : (Program.infer program .empty).Related .upToPlaces Eq
      (Program.infer (program.map Expr.unplaced) .empty) := related_log trivial ran
  have results := (whole 0 0 rfl).result
  change Likeness.upToPlaces.Results Eq program.check.result
    (Program.check (program.map Expr.unplaced)).result at results
  unfold Outcome.finding
  generalize program.check.result = result at results ⊢
  generalize (Program.check (program.map Expr.unplaced)).result = other at results ⊢
  cases results with
  | ok related => rw [related]
  | error alike => exact congrArg Except.error alike

end TypedForms
