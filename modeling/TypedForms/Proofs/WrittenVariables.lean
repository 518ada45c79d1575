import TypedForms.Proofs.CompatibleRows
import TypedForms.Proofs.CreatedNames
import TypedForms.Proofs.IndependentExpressions

/-! Which type variables meet.

A variable stands for itself only, so an answer in favour of a variable needs the
same variable on both sides.  Of two types that a check compares, one holds no
created variable, or all that it holds are older than those of the other one.  A
variable that occurs in both is therefore written in the program.

The names that are created are legal names, so a program can write them as well.
Unless it does, the variables of an operator are its own: no answer is in their
favour.
-/
namespace TypedForms

/-! ## The variables of a type -/

namespace Ty

/-- What a node asks of its name. -/
def NamedAt (known : String → Prop) : Ty → Prop
  | .var name => known name
  | _ => True

/-- All variables of the type are known. -/
def Over (known : String → Prop) (type : Ty) : Prop :=
  type.All (NamedAt known)

variable {known : String → Prop}

theorem over_atomic {type : Ty} (atomic : type.isAtomic = true) : type.Over known := by
  cases type with
  | number | boolean | string | void => exact (all_leaf rfl).mpr trivial
  | var | proc | union => cases atomic

theorem over_var : (var name).Over known ↔ known name :=
  all_leaf rfl

theorem over_proc : (proc params result).Over known ↔
    (∀ param ∈ params, param.Over known) ∧ result.Over known :=
  all_proc.trans (and_iff_right trivial)

theorem Over.join {left right : Ty} (leftOver : left.Over known) (rightOver : right.Over known) :
    (left.join right).Over known := by
  refine unionOf_all (fun _ => trivial) ?_
  exact List.forall_mem_cons.mpr ⟨leftOver, List.forall_mem_singleton.mpr rightOver⟩

theorem Over.mono {type : Ty} {more : String → Prop} (covered : type.Over known)
    (included : ∀ name, known name → more name) : type.Over more := by
  intro node listed
  have here := covered node listed
  cases node with
  | var name => exact included name here
  | _ => trivial

/-- An ascription denotes a type over its own variables. -/
theorem ofAscription_over {ascription : Ascription}
    (all : ∀ name ∈ ascription.variables, known name) : (ofAscription ascription).Over known := by
  have named := Ascription.all_named all
  clear all
  induction ascription with
  | number | boolean | string | void => exact over_atomic rfl
  | named place name => exact over_var.mpr ((Ascription.all_leaf rfl).mp named place name rfl)
  | proc place params result paramsOver resultOver =>
    obtain ⟨_, paramsNamed, resultNamed⟩ := Ascription.all_proc.mp named
    rw [ofAscription, ofAscriptions_eq_map]
    refine over_proc.mpr ⟨List.forall_mem_map.mpr ?_, resultOver resultNamed⟩
    exact fun param listed => paramsOver param listed (paramsNamed param listed)
  | union place members membersOver =>
    obtain ⟨_, membersNamed⟩ := Ascription.all_union.mp named
    rw [ofAscription, ofAscriptions_eq_map]
    refine unionOf_all (fun _ => trivial) (List.forall_mem_map.mpr ?_)
    exact fun member listed => membersOver member listed (membersNamed member listed)

/-! ## Decisions about variables -/

theorem self_mem_nodes (type : Ty) : type ∈ type.nodes := by
  cases type <;> exact List.mem_cons_self

theorem nodes_of_param {params : List Ty} (listed : param ∈ params) :
    param.nodes ⊆ (proc params result).nodes := by
  intro node inside
  rw [nodes, nodesAll_eq_flatMap]
  exact .tail _ (List.mem_append_left _ (List.mem_flatMap.mpr ⟨param, listed, inside⟩))

theorem nodes_of_result : result.nodes ⊆ (proc params result).nodes := by
  intro node inside
  exact .tail _ (List.mem_append_right _ inside)

namespace Decision

/-- The decision answers for two types inside the given ones, one on each side. -/
structure Between (left right : Ty) (decision : Decision) : Prop where
  answer : decision = .about decision.left decision.right
  sides : decision.left ∈ left.nodes ∧ decision.right ∈ right.nodes ∨
    decision.left ∈ right.nodes ∧ decision.right ∈ left.nodes

variable {left right : Ty} {decision : Decision}

theorem between_about (left right : Ty) : (about left right).Between left right :=
  ⟨rfl, .inl ⟨left.self_mem_nodes, right.self_mem_nodes⟩⟩

theorem Between.turned (between : decision.Between left right) : decision.Between right left :=
  ⟨between.answer, between.sides.symm⟩

theorem Between.widen {outerLeft outerRight : Ty} (between : decision.Between left right)
    (leftInside : left.nodes ⊆ outerLeft.nodes) (rightInside : right.nodes ⊆ outerRight.nodes) :
    decision.Between outerLeft outerRight := by
  refine ⟨between.answer, between.sides.imp ?_ ?_⟩
  · exact fun sides => ⟨leftInside sides.1, rightInside sides.2⟩
  · exact fun sides => ⟨rightInside sides.1, leftInside sides.2⟩

/-- The decision is not in favour of a variable, or the variable is known. -/
def FavoursOnly (known : String → Prop) (decision : Decision) : Prop :=
  decision.holds = true → ∀ name, decision.left = .var name ∨ decision.right = .var name →
    known name

end Decision

theorem fitsDecisions_between (left right : Ty) :
    ∀ decision ∈ fitsDecisions left right, decision.Between left right := by
  have inParam : ∀ param result : Ty, param.nodes ⊆ (proc [param] result).nodes :=
    fun _ _ => nodes_of_param (.head _)
  fun_induction fitsDecisions left right with
  | case1 members param result ih =>
    refine List.forall_mem_append.mpr ⟨fun decision listed => ?_,
      List.forall_mem_singleton.mpr (Decision.between_about _ _)⟩
    obtain ⟨_, listed⟩ := List.mem_ite_nil_left.mp listed
    exact (ih decision listed).widen (fun _ => id) (inParam param result)
  | case2 left param result _ ih =>
    refine List.forall_mem_append.mpr ⟨fun decision listed => ?_,
      List.forall_mem_singleton.mpr (Decision.between_about _ _)⟩
    obtain ⟨_, listed⟩ := List.mem_ite_nil_right.mp listed
    exact (ih decision listed).widen (fun _ => id) (inParam param result)
  | case3 left right => exact List.forall_mem_singleton.mpr (Decision.between_about _ _)

mutual

theorem directedDecisions_between (flipped : Bool) (left right : Ty) :
    ∀ decision ∈ directedDecisions flipped left right, decision.Between left right := by
  have unlessProcs : ∀ decision ∈
      (if flipped then fitsDecisions right left else fitsDecisions left right),
      decision.Between left right := by
    cases flipped with
    | true => exact fun decision listed => (fitsDecisions_between right left decision listed).turned
    | false => exact fitsDecisions_between left right
  cases left with
  | proc params result =>
    cases right with
    | proc others target =>
      intro decision listed
      rw [directedDecisions] at listed
      rcases List.mem_append.mp listed with inner | last
      · obtain ⟨_, inner⟩ := List.mem_ite_nil_right.mp inner
        rcases List.mem_append.mp inner with ofResults | ofParams
        · have between := directedDecisions_between flipped result target decision ofResults
          exact between.widen nodes_of_result nodes_of_result
        · obtain ⟨_, ofParams⟩ := List.mem_ite_nil_right.mp ofParams
          obtain ⟨param, isParam, other, isOther, between⟩ :=
            directedDecisionsAll_between (!flipped) params others decision ofParams
          exact between.widen (nodes_of_param isParam) (nodes_of_param isOther)
      · rw [List.mem_singleton.mp last]
        cases flipped with
        | true => exact (Decision.between_about _ _).turned
        | false => exact Decision.between_about _ _
    | _ => exact unlessProcs
  | _ => exact unlessProcs

theorem directedDecisionsAll_between (flipped : Bool) (lefts rights : List Ty) :
    ∀ decision ∈ directedDecisionsAll flipped lefts rights,
      ∃ left ∈ lefts, ∃ right ∈ rights, decision.Between left right := by
  cases lefts with
  | nil => exact nofun
  | cons left lefts =>
    cases rights with
    | nil => exact nofun
    | cons right rights =>
      intro decision listed
      rw [directedDecisionsAll] at listed
      rcases List.mem_append.mp listed with first | later
      · exact ⟨left, .head _, right, .head _,
          directedDecisions_between flipped left right decision first⟩
      · obtain ⟨_, later⟩ := List.mem_ite_nil_right.mp later
        obtain ⟨type, isLeft, other, isRight, between⟩ :=
          directedDecisionsAll_between flipped lefts rights decision later
        exact ⟨type, .tail _ isLeft, other, .tail _ isRight, between⟩

end

/-- An answer in favour of a variable has the variable on both sides. -/
theorem Decision.Between.shares {decision : Decision} {left right : Ty}
    (between : decision.Between left right) (positive : decision.holds = true)
    (about : decision.left = .var name ∨ decision.right = .var name) :
    var name ∈ left.nodes ∧ var name ∈ right.nodes := by
  have compatible : decision.left.compatible decision.right = true := by
    rw [between.answer] at positive
    exact positive
  have both : decision.left = .var name ∧ decision.right = .var name := by
    rcases about with isLeft | isRight
    · rw [isLeft] at compatible
      exact ⟨isLeft, compatible_var_left.mp compatible⟩
    · rw [isRight] at compatible
      exact ⟨compatible_var_right.mp compatible, isRight⟩
  have sides := between.sides
  rw [both.1, both.2] at sides
  exact sides.elim id And.symm

/-- Only variables that occur in both types find favour when the types are compared. -/
theorem decisions_favour {left right : Ty} {inLeft inRight : String → Prop}
    (leftOver : left.Over inLeft) (rightOver : right.Over inRight)
    (shared : ∀ name, inLeft name → inRight name → known name) :
    ∀ decision ∈ decisions left right, decision.FavoursOnly known := by
  intro decision listed positive name about
  obtain ⟨atLeft, atRight⟩ :=
    (directedDecisions_between false left right decision listed).shares positive about
  exact shared name (leftOver _ atLeft) (rightOver _ atRight)

end Ty

/-! ## Variables that a check knows -/

/-- The name is written, or it was created while the count went from the first number to the
second. -/
def Known (written : String → Prop) (low high : Nat) (name : String) : Prop :=
  written name ∨ ∃ n, low ≤ n ∧ n < high ∧ name = generatedName n

variable {written : String → Prop} {count now : Nat}

theorem Known.mono {low high lower higher : Nat} (known : Known written low high name)
    (below : lower ≤ low) (above : high ≤ higher) : Known written lower higher name := by
  rcases known with isWritten | ⟨n, atLeast, less, isCreated⟩
  · exact .inl isWritten
  · exact .inr ⟨n, by omega, by omega, isCreated⟩

/-- What was known before a count and is known from it on is written, because no name is created
twice. -/
theorem Known.shared {low middle high : Nat} (before : Known written low middle name)
    (after : Known written middle high name) : written name := by
  rcases before with isWritten | ⟨m, _, less, isCreated⟩
  · exact isWritten
  · rcases after with isWritten | ⟨n, atLeast, _, isLater⟩
    · exact isWritten
    · have same : m = n := generatedName_injective (isCreated.symm.trans isLater)
      omega

namespace Ty

/-- All variables of the type are written or were created from the first count on. -/
def Since (written : String → Prop) (low high : Nat) (type : Ty) : Prop :=
  type.Over (Known written low high)

theorem Over.since {type : Ty} (covered : type.Over written) : type.Since written count now :=
  covered.mono fun _ => .inl

theorem Since.mono {type : Ty} {low high lower higher : Nat} (since : type.Since written low high)
    (below : lower ≤ low) (above : high ≤ higher) : type.Since written lower higher :=
  Over.mono since fun _ known => known.mono below above

end Ty

/-! ## Checks -/

/-- Decisions favour written variables only, and a value satisfies its condition at the count that
it leaves. -/
structure Outcome.KeepsApart (written : String → Prop) (count : Nat) (holds : Nat → α → Prop)
    (outcome : Outcome α) : Prop where
  decided : ∀ decision, .decided decision ∈ outcome.events → decision.FavoursOnly written
  value : ∀ value, outcome.result = .ok value → holds (count + outcome.created.length) value

namespace Check

/-- A check that keeps created variables apart, begun at the given count. -/
def KeepsApart (written : String → Prop) (count : Nat) (holds : Nat → α → Prop)
    (check : Check α) : Prop :=
  (check count).KeepsApart written count holds

variable {context : Context} {holds : Nat → α → Prop}

theorem apart_pure (value : holds count result) :
    (pure result : Check α).KeepsApart written count holds :=
  ⟨nofun, fun _ same => by cases same; exact value⟩

theorem apart_fail {cause : TypeError.Cause} :
    (context.fail cause : Check α).KeepsApart written count holds :=
  ⟨nofun, nofun⟩

theorem apart_bind {first : Check α} {next : α → Check β} {later : Nat → β → Prop}
    (firstApart : first.KeepsApart written count holds)
    (nextApart : ∀ value now, count ≤ now → holds now value →
      (next value).KeepsApart written now later) :
    (first >>= next).KeepsApart written count later := by
  have begun : (first count).KeepsApart written count holds := firstApart
  refine bind_elim (fun error created events ended => ?_) fun value created events ended => ?_
  · rw [ended] at begun
    exact ⟨begun.decided, fun _ same => by cases same⟩
  · rw [ended] at begun
    have went := nextApart value (count + created.length) (Nat.le_add_right _ _)
      (begun.value value rfl)
    refine ⟨fun decision listed => ?_, fun result ended => ?_⟩
    · rcases List.mem_append.mp listed with early | late
      · exact begun.decided decision early
      · exact went.decided decision late
    · rw [List.length_append, ← Nat.add_assoc]
      exact went.value result ended

theorem KeepsApart.weaken {check : Check α} {weaker : Nat → α → Prop}
    (apart : check.KeepsApart written count holds)
    (weaken : ∀ now value, holds now value → weaker now value) :
    check.KeepsApart written count weaker :=
  ⟨apart.decided, fun value ended => weaken _ value (apart.value value ended)⟩

theorem apart_log {events : List Event} {next : Unit → Check α}
    (silent : ∀ decision, .decided decision ∉ events)
    (apart : (next ()).KeepsApart written count holds) :
    (log events >>= next).KeepsApart written count holds := by
  refine ⟨fun decision listed => ?_, apart.value⟩
  rcases List.mem_append.mp listed with early | late
  · exact absurd early (silent decision)
  · exact apart.decided decision late

theorem apart_declare {expr : Expr} {next : Context → Check α}
    (apart : (next (context.extendPairs expr.definition)).KeepsApart written count holds) :
    (context.declare expr >>= next).KeepsApart written count holds := by
  rw [Context.declare_eq, bind_assoc]
  exact apart_log (by simp) apart

/-- Two types that share written variables only are compared without favour to others. -/
theorem apart_demand {check : Check Unit} {left right : Ty} {met : Bool} {error : TypeError}
    {holds : Nat → Unit → Prop} {inLeft inRight : String → Prop}
    (ended : ∀ count, check count =
      ⟨if met then .ok () else .error error, [], (left.decisions right).map .decided⟩)
    (leftOver : left.Over inLeft) (rightOver : right.Over inRight)
    (shared : ∀ name, inLeft name → inRight name → written name) (value : holds count ()) :
    check.KeepsApart written count holds := by
  unfold KeepsApart
  rw [ended]
  refine ⟨fun decision listed => ?_, fun _ _ => value⟩
  obtain ⟨_, isDecision, same⟩ := List.mem_map.mp listed
  cases same
  exact Ty.decisions_favour leftOver rightOver shared decision isDecision

theorem apart_newVar : newVar.KeepsApart written count (Ty.Since written count) := by
  refine ⟨nofun, fun type ended => ?_⟩
  cases ended
  exact Ty.over_var.mpr (.inr ⟨count, Nat.le_refl _, Nat.lt_succ_self _, rfl⟩)

theorem apart_signature (primitive : Primitive) :
    primitive.signature.KeepsApart written count (Ty.Since written count) := by
  have number : ∀ now, Ty.number.Over (Known written count now) := fun _ => Ty.over_atomic rfl
  have boolean : ∀ now, Ty.boolean.Over (Known written count now) := fun _ => Ty.over_atomic rfl
  have void : ∀ now, Ty.void.Over (Known written count now) := fun _ => Ty.over_atomic rfl
  cases primitive with
  | arithmetic | comparison | connective | negation | newline =>
    exact apart_pure (Ty.over_proc.mpr (by simp [number, boolean, void]))
  | predicate | display =>
    refine apart_bind apart_newVar fun param now _ since => apart_pure ?_
    exact Ty.over_proc.mpr ⟨List.forall_mem_singleton.mpr since, Ty.over_atomic rfl⟩
  | equality =>
    refine apart_bind apart_newVar fun first middle later firstSince => ?_
    refine apart_bind apart_newVar fun second now latest secondSince => apart_pure ?_
    have params : ∀ param ∈ [first, second], param.Since written count now :=
      List.forall_mem_cons.mpr ⟨firstSince.mono (Nat.le_refl _) latest,
        List.forall_mem_singleton.mpr (secondSince.mono later (Nat.le_refl _))⟩
    exact Ty.over_proc.mpr ⟨params, boolean now⟩

end Check

open Check

/-- Declared types over written variables, and computed types over those and the variables that
have been created since. -/
def TypePairing.apart (written : String → Prop) : TypePairing where
  Declared type type' := type.Over written ∧ type' = type
  Computed low now type type' := type.Since written low now ∧ type' = type
  atomic isAtomic := ⟨Ty.over_atomic isAtomic, rfl⟩
  join := by
    rintro _ _ _ _ _ _ ⟨left, rfl⟩ ⟨right, rfl⟩
    exact ⟨left.join right, rfl⟩
  procedure := by
    rintro _ _ _ _ params ⟨result, rfl⟩
    obtain ⟨paramsOver, rfl⟩ := forall₂_image.mp params
    exact ⟨Ty.over_proc.mpr ⟨paramsOver, result⟩, by rw [List.map_id']⟩
  declared both := ⟨both.1.since, both.2⟩
  later passed both := ⟨both.1.mono (Nat.le_refl _) passed, both.2⟩

theorem TypePairing.apart_bound (bound : (apart written).Bound pairs pairs') :
    ∀ pair ∈ pairs, pair.2.Over written :=
  (@bound_image (Ty.Over written) id _ _ bound).1

/-- Only parameters and operands can both hold created variables, and those of the parameters are
older.  Everything else is compared with a type that is declared, or with that of a test. -/
def Check.apartSteps (written : String → Prop) : StepRelation Check Check Unit where
  trees := .same fun node => ∀ own ∈ node.ownAscriptions, (Ty.ofAscription own).Over written
  types := .apart written
  tally := .unit
  lawful := Tally.unit_lawful
  Rel count _ context _ values check _ :=
    context.Binds (Ty.Over written) →
      check.KeepsApart written count fun now value => ∃ other, values now value other
  ascribed good listed := ⟨good _ listed, rfl⟩
  pure value _ := apart_pure ⟨_, value⟩
  bind first next binds :=
    apart_bind (first binds) fun _ now later ⟨_, value⟩ => next now _ _ later value binds
  enter _ next binds := apart_log (by simp) (next binds)
  within bound next binds := next (binds.extendPairs (TypePairing.apart_bound bound))
  primitive {_ _ context _ name _} _ _ since _ := by
    rcases context.primitive_cases name with ⟨primitive, _, isSignature⟩ | ⟨_, isFail⟩
    · rw [isSignature]
      exact (apart_signature primitive).weaken fun _ _ computed =>
        ⟨_, computed.mono since (Nat.le_refl _), rfl⟩
    · rw [isFail]
      exact apart_fail
  lookup {_ _ context _ name _} _ _ _ binds := by
    rcases context.lookup_cases name with ⟨type, found, isPure⟩ | ⟨_, isFail⟩
    · rw [isPure]
      exact apart_pure ⟨_, (binds.lookup found).since, rfl⟩
    · rw [isFail]
      exact apart_fail
  boolean _ _ computed _ := by
    have noVariable : Ty.boolean.Over fun _ => False := Ty.over_atomic rfl
    exact apart_demand (Context.demandBoolean_outcome _ _ _) computed.1 noVariable
      (fun _ _ => False.elim) ⟨(), trivial⟩
  applied {_ _ context _ operator operands _ type _} _ _ computed _ := by
    rcases context.demandProcedure_cases type operands.length _ with
      ⟨params, result, rfl, fits, isPure⟩ | ⟨_, _, _, _, isFail⟩ | ⟨_, isFail⟩
    · obtain ⟨paramsSince, resultSince⟩ := Ty.over_proc.mp computed.1
      rw [isPure]
      exact apart_pure ⟨(params, result), fits,
        List.forall₂_same.mpr fun param listed => ⟨paramsSince param listed, rfl⟩,
        resultSince, rfl⟩
    · rw [isFail]
      exact apart_fail
    · rw [isFail]
      exact apart_fail
  compared _ _ _ comparable _ := by
    have ended := Context.demandCompatible_outcome
    cases comparable with
    | declaredLeft left right =>
      exact apart_demand (ended _ _ _ _) left.1 right.1 (fun _ isWritten _ => isWritten)
        ⟨(), trivial⟩
    | declaredRight left right =>
      exact apart_demand (ended _ _ _ _) left.1 right.1 (fun _ _ => id) ⟨(), trivial⟩
    | earlier left right =>
      exact apart_demand (ended _ _ _ _) left.1 right.1 (fun _ => Known.shared) ⟨(), trivial⟩
  empty _ _ _ _ _ _ := apart_fail
  refused _ _ _ _ _ := apart_fail

/-- A check favours no variable that it creates. -/
def Check.apart (written : String → Prop) : RuleRelation Check Check Unit :=
  (apartSteps written).rules Tally.unit_inSequence fun bound next binds =>
    apart_declare (next (binds.extendPairs (TypePairing.apart_bound bound)))

/-! ## Programs -/

/-- The type variables of all ascriptions in a program. -/
def Program.variables (program : Program) : List String :=
  program.flatMap Expr.variables

/-- The ascriptions of an expression denote types over its variables. -/
theorem Expr.ascriptions_over {expr : Expr} (all : ∀ name ∈ expr.variables, written name) :
    expr.All fun node => ∀ own ∈ node.ownAscriptions, (Ty.ofAscription own).Over written := by
  intro node inside own listed
  refine Ty.ofAscription_over fun name isVariable => all name ?_
  exact List.mem_flatMap.mpr ⟨node, inside, List.mem_flatMap.mpr ⟨own, listed, isVariable⟩⟩

theorem Program.check_favours (program : Program) :
    ∀ decision, .decided decision ∈ program.check.events →
      decision.FavoursOnly (· ∈ program.variables) := by
  have covered : ∀ expr ∈ program, expr.All (Check.apart (· ∈ program.variables)).trees.Good :=
    fun expr listed => Expr.ascriptions_over fun name isVariable =>
      List.mem_flatMap.mpr ⟨expr, listed, isVariable⟩
  have sequence := (Check.apart (· ∈ program.variables)).relates_exprs covered 0 .empty
    .empty (fun _ _ => apart_fail) nofun
  exact (apart_log (by simp) sequence).decided

/-- A program gets the first names, one after the other.  Every answer in favour of a variable is
about a variable that the program writes.  So if the program writes none of the names that it gets,
they are different from all that it writes and no answer is in their favour. -/
theorem written_variables_find_favour (program : Program) :
    program.check.created = (List.range program.check.created.length).map generatedName ∧
      (∀ decision, .decided decision ∈ program.check.events →
        decision.FavoursOnly (· ∈ program.variables)) ∧
      ((∀ n < program.check.created.length, generatedName n ∉ program.variables) →
        ∀ name ∈ program.check.created, name ∉ program.variables ∧
          ∀ decision, .decided decision ∈ program.check.events → decision.holds = true →
            decision.left ≠ .var name ∧ decision.right ≠ .var name) := by
  have next : program.check.created =
      (List.range program.check.created.length).map generatedName := by
    rw [List.range_eq_range']
    exact (Program.infer_creates program .empty 0).next
  have favours := program.check_favours
  refine ⟨next, favours, fun unwritten name isCreated => ?_⟩
  have fresh : name ∉ program.variables := by
    have listed := isCreated
    rw [next] at listed
    obtain ⟨n, isCount, rfl⟩ := List.mem_map.mp listed
    exact unwritten n (List.mem_range.mp isCount)
  refine ⟨fresh, fun decision listed positive => ⟨fun isLeft => ?_, fun isRight => ?_⟩⟩
  · exact fresh (favours decision listed positive name (.inl isLeft))
  · exact fresh (favours decision listed positive name (.inr isRight))

/-- A lambda that asks whether its parameter, of a type with a name of two letters, is a number. -/
def numberTest (name : String) : Expr :=
  .lambda ⟨0, 41⟩ [⟨"x", .named ⟨14, 16⟩ name⟩] (.boolean ⟨21, 28⟩)
    [.application ⟨29, 40⟩ (.primitive ⟨30, 37⟩ "number?") [.identifier ⟨38, 39⟩ "x"]]

/-- The parameter has a type whose name could be created and is not, and the test is refused. -/
theorem later_name_finds_no_favour :
    let program : Program := [numberTest "'b"]
    Program.parse "(lambda ((x : 'b)) : boolean (number? x))" = .ok program ∧
      program.check.created = ["'a"] ∧ program.variables = ["'b"] ∧
      (∀ decision, .decided decision ∈ program.check.events → decision.holds = true →
        decision.left ≠ .var "'a" ∧ decision.right ≠ .var "'a") ∧
      program.check.result =
        .error ⟨.incompatible (.var "'a") (.var "'b") "(number? x)", ⟨29, 40⟩⟩ := by
  intro program
  have created : program.check.created = ["'a"] := by decide +kernel
  have other : program.variables = ["'b"] := by decide +kernel
  have unwritten : ∀ n < program.check.created.length, generatedName n ∉ program.variables := by
    rw [created, other]
    decide +kernel
  have apart := (written_variables_find_favour program).2.2 unwritten "'a" (by simp [created])
  exact ⟨rfl, created, other, apart.2, by decide +kernel⟩

/-- The name that is created for the test is the name of the parameter's type, and the test is
accepted. -/
theorem written_name_captures_operator :
    let program : Program := [numberTest "'a"]
    Program.parse "(lambda ((x : 'a)) : boolean (number? x))" = .ok program ∧
      program.check.created = ["'a"] ∧ program.variables = ["'a"] ∧
      .decided ⟨.var "'a", .var "'a", true⟩ ∈ program.check.events ∧
      program.check.result = .ok (.proc [.var "'a"] .boolean) := by
  intro program
  have logged : program.check.events[5]? = some (.decided ⟨.var "'a", .var "'a", true⟩) := by
    with_unfolding_all rfl
  refine ⟨rfl, by decide +kernel, by decide +kernel, ?_, by decide +kernel⟩
  exact List.mem_of_getElem? logged

end TypedForms
