import Mathlib.Data.List.Forall2
import Mathlib.Tactic.Tauto
import TypedForms.Proofs.TreeNodes
import TypedForms.Proofs.TypingRules

/-! Relations that the typing rules respect.

Two trees are checked side by side, the second a copy of the first with other
places and other ascriptions.  A relation between computations that is closed
under the steps that the rules are made of relates the two checks.  A property of
one check is a relation that does not look at the other.

What a check has gone through is told by a tally, which is added up along the tree
as the rules go down.  Types are related in stages, which are counts of created
names: what has been computed earlier can be told from what has been computed later.
-/
namespace TypedForms

open Checking (lift extending)

/-! ## Trees -/

/-- The variable with another type. -/
def TypedVar.mapType (ascription : Ascription → Ascription) (var : TypedVar) : TypedVar :=
  ⟨var.name, ascription var.type⟩

theorem TypedVar.map_fst_declared (vars : List TypedVar) :
    (vars.map fun var => (var.name, var.declared)).map Prod.fst = vars.map TypedVar.name := by
  rw [List.map_map]
  rfl

/-- The binding with another type and another value. -/
def Binding.mapParts (ascription : Ascription → Ascription) (part : Expr → Expr)
    (binding : Binding) : Binding :=
  .mk (binding.var.mapType ascription) (part binding.value)

/-- The expression with another place, other ascriptions and other parts. -/
def Expr.mapParts (place : Range → Range) (ascription : Ascription → Ascription)
    (part : Expr → Expr) : Expr → Expr
  | .number range value => .number (place range) value
  | .boolean range value => .boolean (place range) value
  | .string range content => .string (place range) content
  | .identifier range name => .identifier (place range) name
  | .primitive range name => .primitive (place range) name
  | .conditional range test thenBranch elseBranch =>
    .conditional (place range) (part test) (part thenBranch) (part elseBranch)
  | .lambda range params result body =>
    .lambda (place range) (params.map (TypedVar.mapType ascription)) (ascription result)
      (body.map part)
  | .application range operator operands =>
    .application (place range) (part operator) (operands.map part)
  | .letForm range bindings body =>
    .letForm (place range) (bindings.map (Binding.mapParts ascription part)) (body.map part)
  | .letrecForm range bindings body =>
    .letrecForm (place range) (bindings.map (Binding.mapParts ascription part)) (body.map part)
  | .define range var value => .define (place range) (var.mapType ascription) (part value)

/-- The trees that are checked side by side: those with good nodes, and their copies. -/
structure TreePairing where
  Good : Expr → Prop
  place : Range → Range
  ascription : Ascription → Ascription
  expr : Expr → Expr
  parts : ∀ tree, expr tree = tree.mapParts place ascription expr

namespace TreePairing

/-- Trees with good nodes, each side by side with itself. -/
def same (Good : Expr → Prop) : TreePairing where
  Good := Good
  place := id
  ascription := id
  expr := id
  parts tree := by
    cases tree <;>
      simp [Expr.mapParts, show TypedVar.mapType id = id from rfl,
        show Binding.mapParts id id = id from funext fun binding => by cases binding; rfl]

variable (trees : TreePairing)

/-- A good node and its copy. -/
def Node (node copy : Expr) : Prop :=
  trees.Good node ∧ trees.expr node = copy

/-- The copy of a binding. -/
abbrev binding : Binding → Binding :=
  Binding.mapParts trees.ascription trees.expr

variable {trees}

theorem node_of_all {tree : Expr} (good : tree.All trees.Good) :
    trees.Node tree (trees.expr tree) :=
  ⟨good.here, rfl⟩

theorem isSome_signature (binding : Binding) :
    (trees.binding binding).signature?.isSome = binding.signature?.isSome := by
  obtain ⟨var, value⟩ := binding
  rw [TreePairing.binding, Binding.mapParts, Binding.value, trees.parts]
  cases value <;> rfl

theorem find_signature (bindings : List Binding) :
    (bindings.map trees.binding).find? (fun binding => binding.signature?.isNone) =
      (bindings.find? fun binding => binding.signature?.isNone).map trees.binding := by
  have isNone : ∀ binding, (trees.binding binding).signature?.isNone =
      binding.signature?.isNone := by
    intro binding
    rw [← Option.not_isSome, ← Option.not_isSome, isSome_signature]
  rw [List.find?_map]
  simp only [Function.comp_def, isNone]

theorem lambdas_binding {bindings : List Binding}
    (lambdas : ∀ binding ∈ bindings, binding.signature?.isSome = true) :
    ∀ binding ∈ bindings.map trees.binding, binding.signature?.isSome = true := by
  refine List.forall_mem_map.mpr fun binding listed => ?_
  rw [isSome_signature]
  exact lambdas binding listed

end TreePairing

/-! ## Tallies -/

/-- What is added up over the parts that a check goes through. -/
structure Tally (G : Type) where
  none : G
  add : G → G → G
  /-- An expression is entered. -/
  enter : Expr → G → G
  /-- The names are bound for a part and not outside it. -/
  within : List String → G → G
  identifier : String → G
  primitive : String → G
  expr : Expr → G
  sequence : List Expr → G
  operands : List Expr → G
  values : List Binding → G
  bodies : List Binding → G

namespace Tally

variable {G : Type} (tally : Tally G)

/-- What the parts of an expression come to. -/
def inside : Expr → G
  | .number .. | .boolean .. | .string .. => tally.none
  | .primitive _ name => tally.primitive name
  | .identifier _ name => tally.identifier name
  | .conditional _ test thenBranch elseBranch =>
    tally.add (tally.expr test) (tally.add (tally.expr thenBranch) (tally.expr elseBranch))
  | .lambda _ params _ body => tally.within (params.map TypedVar.name) (tally.sequence body)
  | .application _ operator operands => tally.add (tally.expr operator) (tally.operands operands)
  | .letForm _ bindings body =>
    tally.add (tally.values bindings)
      (tally.within (bindings.map fun binding => binding.var.name) (tally.sequence body))
  | .letrecForm _ bindings body =>
    tally.within (bindings.map fun binding => binding.var.name)
      (tally.add (tally.bodies bindings) (tally.sequence body))
  | .define _ var value => tally.within [var.name] (tally.expr value)

/-- The tally is added up along the tree. -/
structure Lawful : Prop where
  none_add : ∀ rest, tally.add tally.none rest = rest
  add_none : ∀ rest, tally.add rest tally.none = rest
  expr : ∀ tree, tally.expr tree = tally.enter tree (tally.inside tree)
  sequence : ∀ last, tally.sequence [last] = tally.expr last
  operands_nil : tally.operands [] = tally.none
  operands_cons : ∀ operand rest,
    tally.operands (operand :: rest) = tally.add (tally.expr operand) (tally.operands rest)
  values_nil : tally.values [] = tally.none
  values_cons : ∀ var value rest,
    tally.values (.mk var value :: rest) = tally.add (tally.expr value) (tally.values rest)
  bodies_nil : tally.bodies [] = tally.none
  bodies_cons : ∀ var range params result body rest,
    tally.bodies (.mk var (.lambda range params result body) :: rest) =
      tally.add (tally.within (params.map TypedVar.name) (tally.sequence body))
        (tally.bodies rest)

/-- Nothing is added up. -/
def unit : Tally Unit :=
  ⟨(), fun _ _ => (), fun _ _ => (), fun _ _ => (), fun _ => (), fun _ => (), fun _ => (),
    fun _ => (), fun _ => (), fun _ => (), fun _ => ()⟩

theorem unit_lawful : unit.Lawful := by
  constructor <;> intros <;> rfl

/-- In a sequence a definition is visible to what follows it. -/
def InSequence : Prop :=
  ∀ expr next rest, tally.sequence (expr :: next :: rest) =
    tally.add (tally.expr expr)
      (tally.within (expr.definition.map Prod.fst) (tally.sequence (next :: rest)))

theorem unit_inSequence : unit.InSequence :=
  fun _ _ _ => rfl

end Tally

/-! ## Types -/

/-- Types of the two sides: those that are declared, and those that were computed while the stage
went from the first to the second. -/
structure TypePairing where
  Declared : Ty → Ty → Prop
  Computed : Nat → Nat → Ty → Ty → Prop
  atomic : ∀ {low now type}, type.isAtomic = true → Computed low now type type
  join : ∀ {low now left right left' right'}, Computed low now left left' →
    Computed low now right right' → Computed low now (left.join right) (left'.join right')
  procedure : ∀ {params params' result result'}, List.Forall₂ Declared params params' →
    Declared result result' → Declared (.proc params result) (.proc params' result')
  declared : ∀ {low now type type'}, Declared type type' → Computed low now type type'
  later : ∀ {low now after type type'}, now ≤ after → Computed low now type type' →
    Computed low after type type'

namespace TypePairing

variable (types : TypePairing)

/-- The same names are bound to declared types. -/
def Bound (pairs pairs' : List (String × Ty)) : Prop :=
  List.Forall₂ (fun pair pair' => pair.1 = pair'.1 ∧ types.Declared pair.2 pair'.2) pairs pairs'

/-- Two types that the rules compare: one of them is declared, or the first was computed before the
second. -/
inductive Comparable (now : Nat) : Ty → Ty → Ty → Ty → Prop where
  | declaredLeft (left : types.Declared type type') (right : types.Computed low now other other') :
      Comparable now type other type' other'
  | declaredRight (left : types.Computed low now type type') (right : types.Declared other other') :
      Comparable now type other type' other'
  | earlier (left : types.Computed low middle type type')
      (right : types.Computed middle now other other') : Comparable now type other type' other'

variable {types} in
theorem Comparable.both (comparable : types.Comparable now left right left' right') :
    (∃ low high, types.Computed low high left left') ∧
      ∃ low high, types.Computed low high right right' := by
  cases comparable with
  | declaredLeft declared computed => exact ⟨⟨now, now, types.declared declared⟩, _, _, computed⟩
  | declaredRight computed declared => exact ⟨⟨_, _, computed⟩, now, now, types.declared declared⟩
  | earlier first second => exact ⟨⟨_, _, first⟩, _, _, second⟩

theorem forall₂_image {holds : α → Prop} {image : α → β} {list : List α} {list' : List β} :
    List.Forall₂ (fun value value' => holds value ∧ value' = image value) list list' ↔
      (∀ value ∈ list, holds value) ∧ list' = list.map image := by
  induction list generalizing list' with
  | nil => simp
  | cons value list ih =>
    cases list' with
    | nil => simp
    | cons value' list' =>
      simp only [List.forall₂_cons, ih, List.forall_mem_cons, List.map_cons, List.cons.injEq]
      tauto

/-- Types that meet a condition, related to their images. -/
def image (holds : Ty → Prop) (image : Ty → Ty)
    (atomic : ∀ {type}, type.isAtomic = true → holds type ∧ image type = type)
    (join : ∀ {left right}, holds left → holds right →
      holds (left.join right) ∧ image (left.join right) = (image left).join (image right))
    (procedure : ∀ {params result}, (∀ param ∈ params, holds param) → holds result →
      holds (.proc params result) ∧
        image (.proc params result) = .proc (params.map image) (image result)) :
    TypePairing where
  Declared type type' := holds type ∧ type' = image type
  Computed _ _ type type' := holds type ∧ type' = image type
  atomic isAtomic := ⟨(atomic isAtomic).1, (atomic isAtomic).2.symm⟩
  join := by
    rintro _ _ left right _ _ ⟨leftHolds, rfl⟩ ⟨rightHolds, rfl⟩
    exact ⟨(join leftHolds rightHolds).1, (join leftHolds rightHolds).2.symm⟩
  procedure := by
    rintro params _ result _ declared ⟨resultHolds, rfl⟩
    obtain ⟨paramsHold, rfl⟩ := forall₂_image.mp declared
    exact ⟨(procedure paramsHold resultHolds).1, (procedure paramsHold resultHolds).2.symm⟩
  declared := id
  later _ := id

theorem bound_image {holds : Ty → Prop} {image : Ty → Ty} {pairs pairs' : List (String × Ty)}
    (bound : List.Forall₂ (fun pair pair' => pair.1 = pair'.1 ∧
      holds pair.2 ∧ pair'.2 = image pair.2) pairs pairs') :
    (∀ pair ∈ pairs, holds pair.2) ∧ pairs' = pairs.map fun pair => (pair.1, image pair.2) :=
  forall₂_image.mp (bound.imp fun _ _ both => ⟨both.2.1, Prod.ext both.1.symm both.2.2⟩)

/-- All types are related. -/
def any : TypePairing where
  Declared _ _ := True
  Computed _ _ _ _ := True
  atomic _ := trivial
  join _ _ := trivial
  procedure _ _ := trivial
  declared _ := trivial
  later _ _ := trivial

/-- Every type is related to itself. -/
def same : TypePairing where
  Declared := Eq
  Computed _ _ := Eq
  atomic _ := rfl
  join left right := by rw [left, right]
  procedure params result := by rw [List.forall₂_eq_eq_eq] at params; rw [params, result]
  declared := id
  later _ := id

theorem eq_of_bound {pairs pairs' : List (String × Ty)} (bound : same.Bound pairs pairs') :
    pairs = pairs' := by
  have equal := bound.imp fun _ _ both => Prod.ext both.1 both.2
  rwa [List.forall₂_eq_eq_eq] at equal

end TypePairing

/-! ## Relations -/

/-- A relation between computations, closed under the steps of the rules.  It is stated for a stage,
a tally and the contexts of the two sides, and says how the values are related at the stage that
they leave. -/
structure StepRelation (m n : Type → Type) [Checking m] [Checking n] (G : Type) where
  trees : TreePairing
  types : TypePairing
  tally : Tally G
  lawful : tally.Lawful
  Rel : {α β : Type} → Nat → G → Context → Context → (Nat → α → β → Prop) → m α → n β → Prop
  ascribed : ∀ {node own}, trees.Good node → own ∈ node.ownAscriptions →
    types.Declared (Ty.ofAscription own) (Ty.ofAscription (trees.ascription own))
  pure : ∀ {α β now context other} {values : Nat → α → β → Prop} {value value'},
    values now value value' → Rel now tally.none context other values (pure value) (pure value')
  bind : ∀ {α β γ δ now g h context other} {values : Nat → α → β → Prop}
    {results : Nat → γ → δ → Prop} {first first' next next'},
    Rel now g context other values first first' →
    (∀ after value value', now ≤ after → values after value value' →
      Rel after h context other results (next value) (next' value')) →
    Rel now (tally.add g h) context other results (first >>= next) (first' >>= next')
  enter : ∀ {α β now g context other} {values : Nat → α → β → Prop} {node copy next next'},
    trees.Node node copy →
    Rel now g (context.moveTo node.range) (other.moveTo copy.range) values (next ()) (next' ()) →
    Rel now (tally.enter node g) context other values (lift (Check.log [.typing node]) >>= next)
      (lift (Check.log [.typing copy]) >>= next')
  within : ∀ {α β now g context other} {values : Nat → α → β → Prop} {pairs pairs' next next'},
    types.Bound pairs pairs' →
    Rel now g (context.extendPairs pairs) (other.extendPairs pairs') values
      (next (context.extendPairs pairs)) (next' (other.extendPairs pairs')) →
    Rel now (tally.within (pairs.map Prod.fst) g) context other values
      (extending (Pure.pure (context.extendPairs pairs)) >>= next)
      (extending (Pure.pure (other.extendPairs pairs')) >>= next')
  primitive : ∀ {low now context other name copy},
    trees.Node (.primitive context.range name) copy → other.range = copy.range → low ≤ now →
    Rel now (tally.primitive name) context other (types.Computed low)
      (lift (context.primitive name)) (lift (other.primitive name))
  lookup : ∀ {low now context other name copy},
    trees.Node (.identifier context.range name) copy → other.range = copy.range → low ≤ now →
    Rel now (tally.identifier name) context other (types.Computed low)
      (lift (context.lookup name)) (lift (other.lookup name))
  boolean : ∀ {low now context other place test thenBranch elseBranch copy test' type type'},
    trees.Node (.conditional place test thenBranch elseBranch) copy → trees.Node test test' →
    types.Computed low now type type' →
    Rel now tally.none context other (fun _ _ _ => True)
      (lift ((context.moveTo test.range).demandBoolean type fun _ =>
        (Expr.conditional place test thenBranch elseBranch).text))
      (lift ((other.moveTo test'.range).demandBoolean type' fun _ => copy.text))
  applied : ∀ {low now context other operator operands copy type type'},
    trees.Node (.application context.range operator operands) copy → other.range = copy.range →
    types.Computed low now type type' →
    Rel now tally.none context other
      (fun after found found' => found.1.length = operands.length ∧
        List.Forall₂ (types.Computed low after) found.1 found'.1 ∧
        types.Computed low after found.2 found'.2)
      (lift (context.demandProcedure type operands.length fun _ =>
        (Expr.application context.range operator operands).text))
      (lift (other.demandProcedure type' operands.length fun _ => copy.text))
  compared : ∀ {now context other node copy left right left' right'},
    trees.Node node copy → context.range = node.range → other.range = copy.range →
    types.Comparable now left right left' right' →
    Rel now tally.none context other (fun _ _ _ => True)
      (lift (context.demandCompatible left right fun _ => node.text))
      (lift (other.demandCompatible left' right' fun _ => copy.text))
  empty : ∀ {α β now context other} {values : Nat → α → β → Prop} {holder copy node},
    trees.Node holder copy → context.range = holder.range → other.range = copy.range →
    trees.Good node → node.body? = some [] →
    Rel now (tally.sequence []) context other values (lift (context.fail .emptySequence))
      (lift (other.fail .emptySequence))
  refused : ∀ {α β now g context other} {values : Nat → α → β → Prop}
    {place bindings body copy binding},
    trees.Node (.letrecForm place bindings body) copy → binding ∈ bindings →
    trees.Good binding.value → binding.signature? = none →
    Rel now g context other values
      (lift ((context.moveTo binding.value.range).fail
        (.letrecNonProcedure (Expr.letrecForm place bindings body).text)))
      (lift ((other.moveTo (trees.binding binding).value.range).fail
        (.letrecNonProcedure copy.text)))

/-- A relation between computations that the typing rules respect: besides being closed under their
steps it relates sequences whose first expressions and whose rests are related. -/
structure RuleRelation (m n : Type → Type) [Checking m] [Checking n] (G : Type) extends
    StepRelation m n G where
  sequence : ∀ {low now context other} {values : Nat → Ty → Ty → Prop} {expr next copy next'}
    {rest rest'},
    trees.Node expr copy → types.Bound expr.definition copy.definition →
    Rel now (tally.expr expr) context other (types.Computed low) (expr.inferIn m context)
      (copy.inferIn n other) →
    (∀ after, now ≤ after →
      Rel after (tally.sequence (next :: rest)) (context.extendPairs expr.definition)
        (other.extendPairs copy.definition) values
        (inferSequenceIn m (next :: rest) (context.extendPairs expr.definition))
        (inferSequenceIn n (next' :: rest') (other.extendPairs copy.definition))) →
    Rel now (tally.sequence (expr :: next :: rest)) context other values
      (inferSequenceIn m (expr :: next :: rest) context)
      (inferSequenceIn n (copy :: next' :: rest') other)

/-- A definition is declared on both sides before what follows it. -/
def StepRelation.Declares {m n : Type → Type} [Checking m] [Checking n] {G : Type}
    (relation : StepRelation m n G) : Prop :=
  ∀ {now g context other} {values : Nat → Ty → Ty → Prop} {expr copy next next'},
    relation.types.Bound expr.definition copy.definition →
    relation.Rel now g (context.extendPairs expr.definition) (other.extendPairs copy.definition)
      values (next (context.extendPairs expr.definition))
      (next' (other.extendPairs copy.definition)) →
    relation.Rel now (relation.tally.within (expr.definition.map Prod.fst) g) context other values
      (extending (context.declare expr) >>= next) (extending (other.declare copy) >>= next')

/-- The rules respect a relation that is closed under declarations as well. -/
def StepRelation.rules {m n : Type → Type} [Checking m] [Checking n] {G : Type}
    (relation : StepRelation m n G) (inSequence : relation.tally.InSequence)
    (declares : relation.Declares) : RuleRelation m n G where
  toStepRelation := relation
  sequence _ bound first rest := by
    rw [inSequence, inferSequenceIn, inferSequenceIn]
    exact relation.bind first fun after _ _ passed _ => declares bound (rest after passed)

/-! ## Types of bindings -/

namespace StepRelation

variable {m n : Type → Type} [Checking m] [Checking n] {G : Type}
  (relation : StepRelation m n G)

/-- A step that adds nothing comes before another one. -/
theorem after_step {now : Nat} {g : G} {context other : Context} {values : Nat → α → β → Prop}
    {results : Nat → γ → δ → Prop} {first : m α} {first' : n β} {next : α → m γ} {next' : β → n δ}
    (step : relation.Rel now relation.tally.none context other values first first')
    (rest : ∀ after value value', now ≤ after → values after value value' →
      relation.Rel after g context other results (next value) (next' value')) :
    relation.Rel now g context other results (first >>= next) (first' >>= next') := by
  have both := relation.bind step rest
  rwa [relation.lawful.none_add] at both

/-- A step that adds nothing follows another one. -/
theorem then_step {now : Nat} {g : G} {context other : Context} {values : Nat → α → β → Prop}
    {results : Nat → γ → δ → Prop} {first : m α} {first' : n β} {next : α → m γ} {next' : β → n δ}
    (begun : relation.Rel now g context other values first first')
    (step : ∀ after value value', now ≤ after → values after value value' →
      relation.Rel after relation.tally.none context other results (next value) (next' value')) :
    relation.Rel now g context other results (first >>= next) (first' >>= next') := by
  have both := relation.bind begun step
  rwa [relation.lawful.add_none] at both

theorem declared_vars {vars : List TypedVar}
    (declared : ∀ var ∈ vars, relation.types.Declared var.declared
      (var.mapType relation.trees.ascription).declared) :
    List.Forall₂ relation.types.Declared (vars.map TypedVar.declared)
      ((vars.map (TypedVar.mapType relation.trees.ascription)).map TypedVar.declared) := by
  rw [List.map_map, List.forall₂_map_left_iff, List.forall₂_map_right_iff]
  exact List.forall₂_same.mpr declared

theorem bound_vars {vars : List TypedVar}
    (declared : ∀ var ∈ vars, relation.types.Declared var.declared
      (var.mapType relation.trees.ascription).declared) :
    relation.types.Bound (vars.map fun var => (var.name, var.declared))
      ((vars.map (TypedVar.mapType relation.trees.ascription)).map fun var =>
        (var.name, var.declared)) := by
  rw [TypePairing.Bound, List.map_map, List.forall₂_map_left_iff, List.forall₂_map_right_iff]
  exact List.forall₂_same.mpr fun var listed => ⟨rfl, declared var listed⟩

theorem declared_lambda {place : Range} {params : List TypedVar} {result : Ascription}
    {body : List Expr} (good : relation.trees.Good (.lambda place params result body)) :
    (∀ param ∈ params, relation.types.Declared param.declared
      (param.mapType relation.trees.ascription).declared) ∧
      relation.types.Declared (Ty.ofAscription result)
        (Ty.ofAscription (relation.trees.ascription result)) := by
  refine ⟨fun param listed => ?_, ?_⟩
  · exact relation.ascribed good (List.mem_append_left _ (List.mem_map_of_mem listed))
  · exact relation.ascribed good (List.mem_append_right _ (List.mem_singleton_self _))

theorem declared_signature {place : Range} {params : List TypedVar} {result : Ascription}
    {body : List Expr} (good : relation.trees.Good (.lambda place params result body)) :
    relation.types.Declared (signatureType params result)
      (signatureType (params.map (TypedVar.mapType relation.trees.ascription))
        (relation.trees.ascription result)) := by
  obtain ⟨ofParams, ofResult⟩ := relation.declared_lambda good
  exact relation.types.procedure (relation.declared_vars ofParams) ofResult

theorem declared_letrec {bindings : List Binding}
    (good : ∀ binding ∈ bindings, binding.value.All relation.trees.Good)
    (lambdas : ∀ binding ∈ bindings, binding.signature?.isSome = true) :
    relation.types.Bound (bindings.filterMap Binding.recursive?)
        ((bindings.map relation.trees.binding).filterMap Binding.recursive?) ∧
      List.Forall₂ relation.types.Declared ((bindings.filterMap Binding.signature?).map Prod.snd)
        (((bindings.map relation.trees.binding).filterMap Binding.signature?).map Prod.snd) := by
  induction bindings with
  | nil => exact ⟨.nil, .nil⟩
  | cons binding bindings ih =>
    obtain ⟨first, later⟩ := List.forall_mem_cons.mp lambdas
    obtain ⟨firstGood, laterGood⟩ := List.forall_mem_cons.mp good
    obtain ⟨bound, declared⟩ := ih laterGood later
    obtain ⟨var, value⟩ := binding
    cases value with
    | lambda place params result body =>
      have copied :
          (relation.trees.binding (.mk var (.lambda place params result body))).signature? =
            some (signatureType (params.map (TypedVar.mapType relation.trees.ascription))
              (relation.trees.ascription result),
              Ty.ofAscription (relation.trees.ascription result)) := by
        rw [TreePairing.binding, Binding.mapParts, Binding.value, relation.trees.parts]
        rfl
      obtain ⟨_, ofResult⟩ := relation.declared_lambda firstGood.here
      have ofSignature := relation.declared_signature firstGood.here
      simp only [List.map_cons, List.filterMap_cons, Binding.recursive?, copied, Option.map_some]
      exact ⟨.cons ⟨rfl, ofSignature⟩ bound, .cons ofResult declared⟩
    | _ => cases first

theorem bound_definition {expr : Expr} (good : expr.All relation.trees.Good) :
    relation.types.Bound expr.definition (relation.trees.expr expr).definition := by
  rw [relation.trees.parts]
  cases expr with
  | define place var value =>
    exact .cons ⟨rfl, relation.ascribed good.here (List.mem_singleton_self _)⟩ .nil
  | _ => exact .nil

theorem results {low ended now : Nat} {context other : Context} {whole copy : Expr}
    {bodies bodies' results results' : List Ty} (node : relation.trees.Node whole copy)
    (place : context.range = whole.range) (place' : other.range = copy.range)
    (computed : List.Forall₂ (relation.types.Computed low ended) bodies bodies')
    (since : ended ≤ now) (declared : List.Forall₂ relation.types.Declared results results') :
    relation.Rel now relation.tally.none context other (fun _ _ _ => True)
      (context.demandResultsIn m whole (bodies.zip results))
      (other.demandResultsIn n copy (bodies'.zip results')) := by
  induction computed generalizing now results results' with
  | nil => exact relation.pure trivial
  | cons first later ih =>
    cases declared with
    | nil => exact relation.pure trivial
    | cons firstDeclared laterDeclared =>
      have firstNow := relation.types.later since first
      refine relation.after_step
        (relation.compared node place place' (.declaredRight firstNow firstDeclared))
        fun after _ _ passed _ => ?_
      exact ih (Nat.le_trans since passed) laterDeclared

end StepRelation

/-! ## Lists -/

namespace RuleRelation

variable {m n : Type → Type} [Checking m] [Checking n] {G : Type}
  (relation : RuleRelation m n G)

/-- The checks of the tree and of its copy are related. -/
def Relates (tree : Expr) : Prop :=
  ∀ {low now : Nat} (_ : low ≤ now) (context other : Context),
    relation.Rel now (relation.tally.expr tree) context other (relation.types.Computed low)
      (tree.inferIn m context) ((relation.trees.expr tree).inferIn n other)

variable {relation} {low ended now : Nat} {context other : Context} {whole copy : Expr}

/-- The checks of a sequence are related, provided that those of an empty one are. -/
theorem relates_sequence {exprs : List Expr} (good : ∀ expr ∈ exprs, expr.All relation.trees.Good)
    (each : ∀ expr ∈ exprs, relation.Relates expr) (since : low ≤ now)
    (empty : exprs = [] → relation.Rel now (relation.tally.sequence []) context other
      (relation.types.Computed low) (lift (context.fail .emptySequence) : m Ty)
      (lift (other.fail .emptySequence) : n Ty)) :
    relation.Rel now (relation.tally.sequence exprs) context other (relation.types.Computed low)
      (inferSequenceIn m exprs context)
      (inferSequenceIn n (exprs.map relation.trees.expr) other) := by
  induction exprs generalizing now context other with
  | nil => exact empty rfl
  | cons expr rest ih =>
    obtain ⟨exprGood, restGood⟩ := List.forall_mem_cons.mp good
    obtain ⟨ofExpr, ofRest⟩ := List.forall_mem_cons.mp each
    cases rest with
    | nil =>
      rw [relation.lawful.sequence]
      exact ofExpr since context other
    | cons next rest =>
      refine relation.sequence (TreePairing.node_of_all exprGood)
        (relation.bound_definition exprGood) (ofExpr since context other) fun after passed => ?_
      exact ih restGood ofRest (Nat.le_trans since passed) nofun

/-- The checks of the body of a form are related, in the scope that the form makes. -/
theorem relates_body {body : List Expr} (good : ∀ expr ∈ body, expr.All relation.trees.Good)
    (each : ∀ expr ∈ body, relation.Relates expr) (since : low ≤ now)
    {vars : List TypedVar} {names : List String}
    (declared : ∀ var ∈ vars, relation.types.Declared var.declared
      (var.mapType relation.trees.ascription).declared)
    (named : vars.map TypedVar.name = names) (node : relation.trees.Node whole copy)
    (place : context.range = whole.range) (place' : other.range = copy.range) {form : Expr}
    (here : relation.trees.Good form) (isBody : form.body? = some body) :
    relation.Rel now (relation.tally.within names (relation.tally.sequence body)) context other
      (relation.types.Computed low)
      (extending (Pure.pure (context.bindVars vars)) >>= inferSequenceIn m body)
      (extending (Pure.pure
          (other.bindVars (vars.map (TypedVar.mapType relation.trees.ascription)))) >>=
        inferSequenceIn n (body.map relation.trees.expr)) := by
  rw [← named, ← TypedVar.map_fst_declared]
  refine relation.within (relation.bound_vars declared) (relates_sequence good each since ?_)
  rintro rfl
  exact relation.empty node place place' here isBody

theorem relates_operands {operands : List Expr}
    (each : ∀ operand ∈ operands, relation.Relates operand)
    {params params' : List Ty} (node : relation.trees.Node whole copy)
    (place : context.range = whole.range) (place' : other.range = copy.range)
    (sameLength : params.length = operands.length)
    (computed : List.Forall₂ (relation.types.Computed low ended) params params')
    (since : ended ≤ now) :
    relation.Rel now (relation.tally.operands operands) context other (fun _ _ _ => True)
      (inferOperandsIn m operands params whole context)
      (inferOperandsIn n (operands.map relation.trees.expr) params' copy other) := by
  induction operands generalizing now params params' with
  | nil =>
    rw [relation.lawful.operands_nil]
    simp only [List.map_nil, inferOperandsIn]
    exact relation.pure trivial
  | cons operand operands ih =>
    obtain ⟨ofOperand, ofRest⟩ := List.forall_mem_cons.mp each
    cases computed with
    | nil => cases sameLength
    | cons first later =>
      have firstNow := relation.types.later since first
      rw [relation.lawful.operands_cons, List.map_cons, inferOperandsIn, inferOperandsIn]
      refine relation.bind (ofOperand (Nat.le_refl _) context other)
        fun middle _ _ afterOperand ofType => ?_
      refine relation.after_step
        (relation.compared node place place' (.earlier firstNow ofType))
        fun after _ _ passed _ => ?_
      exact ih ofRest (by simpa using sameLength) later
        (Nat.le_trans (Nat.le_trans since afterOperand) passed)

theorem relates_values {bindings : List Binding}
    (each : ∀ binding ∈ bindings, relation.Relates binding.value)
    (declared : ∀ binding ∈ bindings, relation.types.Declared binding.var.declared
      (binding.var.mapType relation.trees.ascription).declared)
    (node : relation.trees.Node whole copy) (place : context.range = whole.range)
    (place' : other.range = copy.range) :
    relation.Rel now (relation.tally.values bindings) context other (fun _ _ _ => True)
      (inferValuesIn m bindings whole context)
      (inferValuesIn n (bindings.map relation.trees.binding) copy other) := by
  induction bindings generalizing now with
  | nil =>
    rw [relation.lawful.values_nil]
    exact relation.pure trivial
  | cons binding rest ih =>
    obtain ⟨var, value⟩ := binding
    obtain ⟨ofValue, ofValues⟩ := List.forall_mem_cons.mp each
    obtain ⟨ofVar, ofVars⟩ := List.forall_mem_cons.mp declared
    rw [relation.lawful.values_cons, List.map_cons, TreePairing.binding, Binding.mapParts,
      inferValuesIn, inferValuesIn]
    refine relation.bind (ofValue (Nat.le_refl _) context other) fun middle _ _ _ ofType => ?_
    refine relation.after_step (relation.compared node place place' (.declaredLeft ofVar ofType))
      fun after _ _ _ _ => ?_
    exact ih ofValues ofVars

theorem relates_bodies {bindings : List Binding}
    (good : ∀ binding ∈ bindings, binding.value.All relation.trees.Good)
    (each : ∀ binding ∈ bindings, ∀ body, binding.value.body? = some body →
      ∀ expr ∈ body, relation.Relates expr)
    (lambdas : ∀ binding ∈ bindings, binding.signature?.isSome = true)
    (node : relation.trees.Node whole copy) (place : context.range = whole.range)
    (place' : other.range = copy.range) (since : low ≤ now) :
    relation.Rel now (relation.tally.bodies bindings) context other
      (fun after => List.Forall₂ (relation.types.Computed low after))
      (inferBodiesIn m bindings context)
      (inferBodiesIn n (bindings.map relation.trees.binding) other) := by
  induction bindings generalizing now with
  | nil =>
    rw [relation.lawful.bodies_nil]
    exact relation.pure .nil
  | cons binding rest ih =>
    obtain ⟨var, value⟩ := binding
    obtain ⟨valueGood, restGood⟩ := List.forall_mem_cons.mp good
    obtain ⟨ofValue, ofRest⟩ := List.forall_mem_cons.mp each
    obtain ⟨first, later⟩ := List.forall_mem_cons.mp lambdas
    cases value with
    | lambda range params result body =>
      obtain ⟨here, bodyGood⟩ := Expr.all_lambda.mp valueGood
      rw [relation.lawful.bodies_cons, List.map_cons, TreePairing.binding, Binding.mapParts,
        Binding.value, relation.trees.parts, Expr.mapParts, inferBodiesIn_lambda,
        inferBodiesIn_lambda]
      refine relation.bind (relates_body bodyGood (ofValue body rfl) since
        (relation.declared_lambda here).1 rfl node place place' here rfl)
        fun middle _ _ passed ofType => ?_
      refine relation.then_step (ih restGood ofRest later (Nat.le_trans since passed))
        fun ended _ _ afterRest ofTypes => ?_
      exact relation.pure (.cons (relation.types.later afterRest ofType) ofTypes)
    | _ => cases first

/-! ## Expressions -/

variable {place : Range}

theorem relates_conditional {test thenBranch elseBranch : Expr}
    (good : (Expr.conditional place test thenBranch elseBranch).All relation.trees.Good)
    (ofTest : relation.Relates test) (ofThen : relation.Relates thenBranch)
    (ofElse : relation.Relates elseBranch) :
    relation.Relates (.conditional place test thenBranch elseBranch) := by
  intro low now since context other
  have node := TreePairing.node_of_all good
  obtain ⟨_, testGood, _⟩ := Expr.all_conditional.mp good
  rw [relation.lawful.expr]
  rw [relation.trees.parts] at node ⊢
  simp only [Expr.mapParts, Expr.inferIn] at node ⊢
  refine relation.enter node (relation.bind (ofTest since _ _) fun tested _ _ afterTest found => ?_)
  refine relation.after_step (relation.boolean node (TreePairing.node_of_all testGood) found)
    fun decided _ _ afterDecision _ => ?_
  have sinceDecision := Nat.le_trans (Nat.le_trans since afterTest) afterDecision
  refine relation.bind (ofThen sinceDecision _ _) fun middle _ _ afterThen found => ?_
  refine relation.then_step (ofElse (Nat.le_trans sinceDecision afterThen) _ _)
    fun ended _ _ afterElse foundElse => ?_
  exact relation.pure (relation.types.join (relation.types.later afterElse found) foundElse)

theorem relates_lambda {params : List TypedVar} {result : Ascription} {body : List Expr}
    (good : (Expr.lambda place params result body).All relation.trees.Good)
    (each : ∀ expr ∈ body, relation.Relates expr) :
    relation.Relates (.lambda place params result body) := by
  intro low now since context other
  have node := TreePairing.node_of_all good
  obtain ⟨here, bodyGood⟩ := Expr.all_lambda.mp good
  obtain ⟨ofParams, ofResult⟩ := relation.declared_lambda here
  rw [relation.lawful.expr]
  rw [relation.trees.parts] at node ⊢
  simp only [Expr.mapParts] at node ⊢
  rw [Expr.inferIn_lambda, Expr.inferIn_lambda]
  refine relation.enter node (relation.then_step
    (relates_body bodyGood each since ofParams rfl node rfl rfl here rfl)
    fun ended _ _ _ found => ?_)
  refine relation.after_step (relation.compared node rfl rfl (.declaredRight found ofResult))
    fun _ _ _ _ _ => ?_
  exact relation.pure (relation.types.declared (relation.declared_signature here))

theorem relates_application {operator : Expr} {operands : List Expr}
    (good : (Expr.application place operator operands).All relation.trees.Good)
    (ofOperator : relation.Relates operator)
    (each : ∀ operand ∈ operands, relation.Relates operand) :
    relation.Relates (.application place operator operands) := by
  intro low now since context other
  have node := TreePairing.node_of_all good
  rw [relation.lawful.expr]
  rw [relation.trees.parts] at node ⊢
  simp only [Expr.mapParts, Expr.inferIn, List.length_map] at node ⊢
  refine relation.enter node (relation.bind (ofOperator since _ _) fun _ _ _ _ found => ?_)
  refine relation.after_step (relation.applied node rfl found) ?_
  rintro ended types types' _ ⟨sameLength, ofParams, ofResult⟩
  refine relation.then_step (relates_operands each node rfl rfl sameLength ofParams (Nat.le_refl _))
    fun _ _ _ afterOperands _ => ?_
  exact relation.pure (relation.types.later afterOperands ofResult)

theorem relates_letForm {bindings : List Binding} {body : List Expr}
    (good : (Expr.letForm place bindings body).All relation.trees.Good)
    (ofValues : ∀ binding ∈ bindings, relation.Relates binding.value)
    (each : ∀ expr ∈ body, relation.Relates expr) :
    relation.Relates (.letForm place bindings body) := by
  intro low now since context other
  have node := TreePairing.node_of_all good
  obtain ⟨here, _, bodyGood⟩ := Expr.all_letForm.mp good
  have ofVars : ∀ binding ∈ bindings, relation.types.Declared binding.var.declared
      (binding.var.mapType relation.trees.ascription).declared :=
    fun binding listed => relation.ascribed here (List.mem_map_of_mem listed)
  have copied : (bindings.map relation.trees.binding).map Binding.var =
      (bindings.map Binding.var).map (TypedVar.mapType relation.trees.ascription) := by
    rw [List.map_map, List.map_map]
    rfl
  rw [relation.lawful.expr]
  rw [relation.trees.parts] at node ⊢
  simp only [Expr.mapParts] at node ⊢
  rw [Expr.inferIn_letForm, Expr.inferIn_letForm, copied]
  refine relation.enter node (relation.bind (relates_values ofValues ofVars node rfl rfl)
    fun _ _ _ passed _ => ?_)
  exact relates_body bodyGood each (Nat.le_trans since passed) (List.forall_mem_map.mpr ofVars)
    List.map_map node rfl rfl here rfl

theorem relates_letrecForm {bindings : List Binding} {body : List Expr}
    (good : (Expr.letrecForm place bindings body).All relation.trees.Good)
    (ofBodies : ∀ binding ∈ bindings, ∀ body, binding.value.body? = some body →
      ∀ expr ∈ body, relation.Relates expr)
    (each : ∀ expr ∈ body, relation.Relates expr) :
    relation.Relates (.letrecForm place bindings body) := by
  intro low now since context other
  have node := TreePairing.node_of_all good
  obtain ⟨here, valuesGood, bodyGood⟩ := Expr.all_letrecForm.mp good
  rw [relation.lawful.expr]
  rw [relation.trees.parts] at node ⊢
  simp only [Expr.mapParts] at node ⊢
  rcases Expr.letrec_refused_or_lambdas bindings with ⟨binding, found⟩ | lambdas
  · have foundAgain : (bindings.map relation.trees.binding).find?
        (fun binding => binding.signature?.isNone) = some (relation.trees.binding binding) := by
      rw [TreePairing.find_signature, found, Option.map_some]
    have listed := List.mem_of_find?_eq_some found
    have unsigned : binding.signature? = none := by simpa using List.find?_some found
    rw [Expr.inferIn_letrecForm_refused found, Expr.inferIn_letrecForm_refused foundAgain]
    exact relation.enter node
      (relation.refused node listed (valuesGood binding listed).here unsigned)
  · obtain ⟨ofNames, ofResults⟩ := relation.declared_letrec valuesGood lambdas
    rw [Expr.inferIn_letrecForm lambdas,
      Expr.inferIn_letrecForm (TreePairing.lambdas_binding lambdas)]
    refine relation.enter node ?_
    rw [Tally.inside, ← Binding.map_fst_recursive lambdas]
    refine relation.within ofNames ?_
    refine relation.bind (relates_bodies valuesGood ofBodies lambdas node rfl rfl since)
      fun ended _ _ afterBodies found => ?_
    refine relation.after_step (relation.results node rfl rfl found (Nat.le_refl _) ofResults)
      fun _ _ _ passed _ => ?_
    refine relates_sequence bodyGood each (Nat.le_trans (Nat.le_trans since afterBodies) passed) ?_
    rintro rfl
    exact relation.empty node rfl rfl here rfl

theorem relates_define {var : TypedVar} {value : Expr}
    (good : (Expr.define place var value).All relation.trees.Good)
    (ofValue : relation.Relates value) : relation.Relates (.define place var value) := by
  intro low now since context other
  have node := TreePairing.node_of_all good
  have ofVar := relation.ascribed good.here (List.mem_singleton_self var.type)
  have bound : relation.types.Bound [(var.name, var.declared)]
      [(var.name, (var.mapType relation.trees.ascription).declared)] := .cons ⟨rfl, ofVar⟩ .nil
  rw [relation.lawful.expr]
  rw [relation.trees.parts] at node ⊢
  simp only [Expr.mapParts, Expr.inferIn] at node ⊢
  refine relation.enter node (relation.then_step (relation.within bound (ofValue since _ _))
    fun _ _ _ _ found => ?_)
  refine relation.after_step (relation.compared node rfl rfl (.declaredLeft ofVar found))
    fun _ _ _ _ _ => ?_
  exact relation.pure (relation.types.atomic rfl)

theorem relates_literal {tree : Expr} (node : relation.trees.Node tree copy) (type : Ty)
    (atomic : type.isAtomic = true) (adds : relation.tally.inside tree = relation.tally.none)
    (rule : ∀ context, tree.inferIn m context = do
      lift (Check.log [.typing tree])
      return type)
    (rule' : ∀ context, copy.inferIn n context = do
      lift (Check.log [.typing copy])
      return type) : relation.Relates tree := by
  intro low now since context other
  rw [relation.lawful.expr, node.2, adds, rule, rule']
  exact relation.enter node (relation.pure (relation.types.atomic atomic))

theorem relates_operator {name : String}
    (node : relation.trees.Node (.primitive place name)
      (.primitive (relation.trees.place place) name)) :
    relation.Relates (.primitive place name) := by
  intro low now since context other
  rw [relation.lawful.expr, node.2]
  simp only [Expr.inferIn]
  exact relation.enter node (relation.primitive node rfl since)

theorem relates_identifier {name : String}
    (node : relation.trees.Node (.identifier place name)
      (.identifier (relation.trees.place place) name)) :
    relation.Relates (.identifier place name) := by
  intro low now since context other
  rw [relation.lawful.expr, node.2]
  simp only [Expr.inferIn]
  exact relation.enter node (relation.lookup node rfl since)

/-- A `letrec` goes into the bodies of its lambdas, so what is needed of a value is both its own
check and those in its body. -/
theorem relates_parts (tree : Expr) (good : tree.All relation.trees.Good) :
    relation.Relates tree ∧
      ∀ body, tree.body? = some body → ∀ expr ∈ body, relation.Relates expr := by
  induction tree with
  | number place value =>
    have node := TreePairing.node_of_all good
    rw [relation.trees.parts] at node
    exact ⟨relates_literal node .number rfl rfl (fun _ => rfl) fun _ => rfl, nofun⟩
  | boolean place value =>
    have node := TreePairing.node_of_all good
    rw [relation.trees.parts] at node
    exact ⟨relates_literal node .boolean rfl rfl (fun _ => rfl) fun _ => rfl, nofun⟩
  | string place content =>
    have node := TreePairing.node_of_all good
    rw [relation.trees.parts] at node
    exact ⟨relates_literal node .string rfl rfl (fun _ => rfl) fun _ => rfl, nofun⟩
  | primitive place name =>
    exact ⟨relates_operator ⟨good.here, relation.trees.parts _⟩, nofun⟩
  | identifier place name =>
    exact ⟨relates_identifier ⟨good.here, relation.trees.parts _⟩, nofun⟩
  | conditional place test thenBranch elseBranch ofTest ofThen ofElse =>
    obtain ⟨_, testGood, thenGood, elseGood⟩ := Expr.all_conditional.mp good
    exact ⟨relates_conditional good (ofTest testGood).1 (ofThen thenGood).1 (ofElse elseGood).1,
      nofun⟩
  | lambda place params result body ofBody =>
    obtain ⟨_, bodyGood⟩ := Expr.all_lambda.mp good
    have each : ∀ expr ∈ body, relation.Relates expr :=
      fun expr listed => (ofBody expr listed (bodyGood expr listed)).1
    exact ⟨relates_lambda good each, fun _ isBody => Option.some.inj isBody ▸ each⟩
  | application place operator operands ofOperator ofOperands =>
    obtain ⟨_, operatorGood, operandsGood⟩ := Expr.all_application.mp good
    exact ⟨relates_application good (ofOperator operatorGood).1 fun operand listed =>
      (ofOperands operand listed (operandsGood operand listed)).1, nofun⟩
  | letForm place bindings body ofValues ofBody =>
    obtain ⟨_, valuesGood, bodyGood⟩ := Expr.all_letForm.mp good
    have each : ∀ expr ∈ body, relation.Relates expr :=
      fun expr listed => (ofBody expr listed (bodyGood expr listed)).1
    have values : ∀ binding ∈ bindings, relation.Relates binding.value :=
      fun binding listed => (ofValues binding listed (valuesGood binding listed)).1
    exact ⟨relates_letForm good values each, fun _ isBody => Option.some.inj isBody ▸ each⟩
  | letrecForm place bindings body ofValues ofBody =>
    obtain ⟨_, valuesGood, bodyGood⟩ := Expr.all_letrecForm.mp good
    have each : ∀ expr ∈ body, relation.Relates expr :=
      fun expr listed => (ofBody expr listed (bodyGood expr listed)).1
    exact ⟨relates_letrecForm good (fun binding listed =>
        (ofValues binding listed (valuesGood binding listed)).2) each,
      fun _ isBody => Option.some.inj isBody ▸ each⟩
  | define place var value ofValue =>
    exact ⟨relates_define good (ofValue (Expr.all_define.mp good).2).1, nofun⟩

variable (relation)

/-- What the steps of the rules respect, the rules respect: the checks of an expression and of its
copy are related. -/
theorem relates_expr {tree : Expr} (good : tree.All relation.trees.Good) (now : Nat)
    (context other : Context) :
    relation.Rel now (relation.tally.expr tree) context other (relation.types.Computed now)
      (tree.inferIn m context) ((relation.trees.expr tree).inferIn n other) :=
  (relates_parts tree good).1 (Nat.le_refl now) context other

/-- The checks of a sequence and of its copy are related. -/
theorem relates_exprs {exprs : List Expr} (good : ∀ expr ∈ exprs, expr.All relation.trees.Good)
    (now : Nat) (context other : Context)
    (empty : exprs = [] → relation.Rel now (relation.tally.sequence []) context other
      (relation.types.Computed now) (lift (context.fail .emptySequence) : m Ty)
      (lift (other.fail .emptySequence) : n Ty)) :
    relation.Rel now (relation.tally.sequence exprs) context other (relation.types.Computed now)
      (inferSequenceIn m exprs context)
      (inferSequenceIn n (exprs.map relation.trees.expr) other) :=
  relates_sequence good (fun expr listed => (relates_parts expr (good expr listed)).1)
    (Nat.le_refl now) empty

end RuleRelation

end TypedForms
