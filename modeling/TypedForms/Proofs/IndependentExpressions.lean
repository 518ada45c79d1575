import TypedForms.Proofs.CreatedNames
import TypedForms.Proofs.LexicalScoping
import TypedForms.Proofs.RenamedChecks

/-! Independent expressions commute.

Two neighbours in a program that do not use each other's names can change places.
What either of them creates is then shifted by the number of names that the other
one creates.  A shift is a renaming, and it touches nothing in a program that is
written without generated names: it changes neither whether a check succeeds nor
what the check leaves behind for the expressions that follow.
-/
namespace TypedForms

/-! ## Written variables -/

/-- The type variables of an ascription. -/
def Ascription.variables (ascription : Ascription) : List String :=
  ascription.nodes.filterMap fun
    | .named _ name => some name
    | _ => none

/-- The type variables of all ascriptions in an expression. -/
def Expr.variables (expr : Expr) : List String :=
  expr.nodes.flatMap fun node => node.ownAscriptions.flatMap Ascription.variables

/-- What holds of the variables of an ascription holds at all nodes that name one. -/
theorem Ascription.all_named {known : String → Prop} {ascription : Ascription}
    (all : ∀ name ∈ ascription.variables, known name) :
    ascription.All fun node => ∀ place name, node = .named place name → known name := by
  rintro _ listed place name rfl
  exact all name (List.mem_filterMap.mpr ⟨_, listed, rfl⟩)

section Fixed

variable {renamer : Renaming}

private theorem map_fixed {apply : α → α} {list : List α}
    (fixed : ∀ item ∈ list, apply item = item) : list.map apply = list :=
  (List.map_congr_left fixed).trans (List.map_id _)

/-- A renaming that fixes the variables of an ascription leaves it as it is. -/
theorem Ascription.rename_fixed {ascription : Ascription}
    (fixed : ∀ name ∈ ascription.variables, renamer.apply name = name) :
    ascription.rename renamer = ascription := by
  have fixedAt := all_named fixed
  clear fixed
  induction ascription with
  | number | boolean | string | void => rfl
  | named place name => rw [rename, (all_leaf rfl).mp fixedAt place name rfl]
  | proc place params result paramsSame resultSame =>
    obtain ⟨_, paramsFixed, resultFixed⟩ := all_proc.mp fixedAt
    rw [rename, renameAll_eq_map, resultSame resultFixed,
      map_fixed fun param listed => paramsSame param listed (paramsFixed param listed)]
  | union place members membersSame =>
    obtain ⟨_, membersFixed⟩ := all_union.mp fixedAt
    rw [rename, renameAll_eq_map,
      map_fixed fun member listed => membersSame member listed (membersFixed member listed)]

theorem TypedVar.rename_fixed {var : TypedVar} (fixed : var.type.rename renamer = var.type) :
    var.rename renamer = var := by
  rw [rename, fixed]

theorem Binding.rename_fixed {binding : Binding}
    (var : binding.var.type.rename renamer = binding.var.type)
    (value : binding.value.rename renamer = binding.value) : binding.rename renamer = binding := by
  rw [rename, TypedVar.rename_fixed var, value]
  cases binding
  rfl

/-- A renaming that leaves all ascriptions of an expression as they are leaves the expression. -/
theorem Expr.rename_fixed {expr : Expr}
    (fixed : expr.All fun node => ∀ own ∈ node.ownAscriptions, own.rename renamer = own) :
    expr.rename renamer = expr := by
  induction expr with
  | number | boolean | string | identifier | primitive => rfl
  | conditional place test thenBranch elseBranch testSame thenSame elseSame =>
    obtain ⟨_, testFixed, thenFixed, elseFixed⟩ := all_conditional.mp fixed
    rw [rename, testSame testFixed, thenSame thenFixed, elseSame elseFixed]
  | lambda place params result body bodySame =>
    obtain ⟨own, bodyFixed⟩ := all_lambda.mp fixed
    obtain ⟨ofParams, ofResult⟩ := List.forall_mem_append.mp own
    rw [rename, renameAll_eq_map, ofResult result (by simp),
      map_fixed fun param listed =>
        TypedVar.rename_fixed (List.forall_mem_map.mp ofParams param listed),
      map_fixed fun expr listed => bodySame expr listed (bodyFixed expr listed)]
  | application place operator operands operatorSame operandsSame =>
    obtain ⟨_, operatorFixed, operandsFixed⟩ := all_application.mp fixed
    rw [rename, renameAll_eq_map, operatorSame operatorFixed,
      map_fixed fun operand listed => operandsSame operand listed (operandsFixed operand listed)]
  | letForm place bindings body valuesSame bodySame =>
    obtain ⟨own, valuesFixed, bodyFixed⟩ := all_letForm.mp fixed
    rw [rename, renameAll_eq_map, renameBindings_eq_map,
      map_fixed fun binding listed => Binding.rename_fixed
        (List.forall_mem_map.mp own binding listed)
        (valuesSame binding listed (valuesFixed binding listed)),
      map_fixed fun expr listed => bodySame expr listed (bodyFixed expr listed)]
  | letrecForm place bindings body valuesSame bodySame =>
    obtain ⟨own, valuesFixed, bodyFixed⟩ := all_letrecForm.mp fixed
    rw [rename, renameAll_eq_map, renameBindings_eq_map,
      map_fixed fun binding listed => Binding.rename_fixed
        (List.forall_mem_map.mp own binding listed)
        (valuesSame binding listed (valuesFixed binding listed)),
      map_fixed fun expr listed => bodySame expr listed (bodyFixed expr listed)]
  | define place var value valueSame =>
    obtain ⟨own, valueFixed⟩ := all_define.mp fixed
    rw [rename, TypedVar.rename_fixed (own var.type (by simp [ownAscriptions])),
      valueSame valueFixed]

end Fixed

/-! ## Shifting generated names -/

/-- Sends each generated name to the one that is created so many names later, and fixes the rest. -/
noncomputable def shiftName (distance : Nat) : String → String :=
  Function.extend generatedName (fun n => generatedName (n + distance)) id

theorem shiftName_generated (distance n : Nat) :
    shiftName distance (generatedName n) = generatedName (n + distance) :=
  generatedName_injective.extend_apply _ _ n

theorem shiftName_other (distance : Nat) (other : ∀ n, name ≠ generatedName n) :
    shiftName distance name = name :=
  Function.extend_apply' _ _ _ fun ⟨n, same⟩ => other n same.symm

/-- A name is generated or left alone. -/
theorem shiftName_cases (distance : Nat) (name : String) :
    (∃ n, name = generatedName n ∧ shiftName distance name = generatedName (n + distance)) ∨
      (∀ n, name ≠ generatedName n) ∧ shiftName distance name = name := by
  by_cases generated : ∃ n, name = generatedName n
  · obtain ⟨n, rfl⟩ := generated
    exact .inl ⟨n, rfl, shiftName_generated distance n⟩
  · have other := not_exists.mp generated
    exact .inr ⟨other, shiftName_other distance other⟩

namespace Renaming

/-- The renaming that shifts generated names. -/
noncomputable def shift (distance : Nat) : Renaming where
  apply := shiftName distance
  legal name legal := by
    obtain ⟨n, _, shifted⟩ | ⟨_, same⟩ := shiftName_cases distance name
    · rw [shifted]
      exact generatedName_legal (n + distance)
    · rw [same]
      exact legal
  apart name other _ _ same := by
    obtain ⟨n, rfl, shifted⟩ | ⟨notGenerated, fixed⟩ := shiftName_cases distance name
    · obtain ⟨m, rfl, otherShifted⟩ | ⟨otherNot, otherFixed⟩ := shiftName_cases distance other
      · rw [shifted, otherShifted] at same
        rw [Nat.add_right_cancel (generatedName_injective same)]
      · rw [shifted, otherFixed] at same
        exact absurd same.symm (otherNot _)
    · obtain ⟨m, rfl, otherShifted⟩ | ⟨_, otherFixed⟩ := shiftName_cases distance other
      · rw [fixed, otherShifted] at same
        exact absurd same (notGenerated _)
      · rw [fixed, otherFixed] at same
        exact same

/-- The counts of two checks are in step when the second has begun so many names later. -/
theorem shift_counts (distance count : Nat) :
    (shift distance).likeness.counts count (count + distance) := by
  intro n
  rw [Nat.add_right_comm]
  exact shiftName_generated distance (count + n)

end Renaming

/-- No type variable of the expression has the form of a generated name. -/
def Expr.Plain (expr : Expr) : Prop :=
  ∀ name ∈ expr.variables, ∀ n, name ≠ generatedName n

theorem Expr.rename_shift {expr : Expr} (plain : expr.Plain) (distance : Nat) :
    expr.rename (.shift distance) = expr := by
  refine rename_fixed fun node listed own isOwn => Ascription.rename_fixed fun name written => ?_
  refine shiftName_other distance (plain name (List.mem_flatMap.mpr ⟨node, listed, ?_⟩))
  exact List.mem_flatMap.mpr ⟨own, isOwn, written⟩

/-- All types in the context are readable and no shift changes them. -/
structure Context.Plain (context : Context) : Prop where
  readable : context.Readable
  unshifted : ∀ distance, context.rename (.shift distance) = context

theorem Context.plain_empty : Context.empty.Plain :=
  ⟨nofun, fun _ => rfl⟩

theorem Context.Plain.define {context : Context} (plain : context.Plain) {expr : Expr}
    (admissible : expr.Admissible) (written : expr.Plain) :
    (context.extendPairs expr.definition).Plain := by
  refine ⟨plain.readable.extendPairs (expr.definition_rename (.shift 0) admissible).1,
    fun distance => ?_⟩
  rw [Context.rename_extendPairs, ← (expr.definition_rename (.shift distance) admissible).2,
    expr.rename_shift written, plain.unshifted]

/-! ## Success -/

/-- The check has ended with a value. -/
def Outcome.Succeeds (outcome : Outcome α) : Prop :=
  ∃ value, outcome.result = .ok value

theorem Outcome.Related.succeeds_iff {likeness : Likeness} {values : α → β → Prop}
    {left : Outcome α} {right : Outcome β} (related : left.Related likeness values right) :
    left.Succeeds ↔ right.Succeeds := by
  have belong := related.result
  unfold Succeeds
  generalize left.result = result at belong ⊢
  generalize right.result = other at belong ⊢
  cases belong with
  | ok => simp
  | error => simp

/-- Where the count begins does not decide whether a check succeeds. -/
theorem Expr.infer_shifted {expr : Expr} {context : Context} (admissible : expr.Admissible)
    (written : expr.Plain) (plain : context.Plain) (count distance : Nat) :
    (expr.infer context (count + distance)).Succeeds ↔ (expr.infer context count).Succeeds := by
  have related := expr.infer_related (.shift distance) context admissible plain.readable
  rw [expr.rename_shift written, plain.unshifted] at related
  exact (related _ _ (Renaming.shift_counts distance count)).succeeds_iff.symm

/-- A sequence has a type when its first expression has one and the rest then has that type. -/
theorem inferSequence_ok_iff {expr : Expr} {rest : List Expr} (more : rest ≠ [])
    {context : Context} {count : Nat} {type : Ty} :
    (inferSequence (expr :: rest) context count).result = .ok type ↔
      (expr.infer context count).Succeeds ∧
        (inferSequence rest (context.extendPairs expr.definition)
          (count + Expr.namesFor expr.nodes)).result = .ok type := by
  obtain ⟨next, rest, rfl⟩ := List.exists_cons_of_ne_nil more
  have creates := expr.infer_creates context count
  rw [inferSequence_cons]
  refine @Check.bind_elim _ _ _ _ _ (fun outcome => outcome.result = .ok type ↔ _)
    (fun error created events ended => ?_) fun value created events ended => ?_
  · simp [Outcome.Succeeds, ended]
  · have all : created.length = Expr.namesFor expr.nodes := by
      rw [ended] at creates
      exact creates.all value rfl
    rw [← all]
    simp only [Outcome.Succeeds, ended, Except.ok.injEq, exists_eq', true_and]
    rfl

/-! ## Neighbours -/

/-- Neither expression uses a name that the other one defines, and they define different names. -/
structure Expr.Independent (first second : Expr) : Prop where
  unusedBySecond : ∀ name ∈ first.definedNames, name ∉ second.free
  unusedByFirst : ∀ name ∈ second.definedNames, name ∉ first.free
  apart : ∀ name ∈ first.definedNames, name ∉ second.definedNames

theorem Expr.Independent.symm {first second : Expr} (independent : first.Independent second) :
    second.Independent first :=
  ⟨independent.unusedByFirst, independent.unusedBySecond,
    fun name defined other => independent.apart name other defined⟩

/-- A definition whose name is not used changes nothing. -/
theorem Expr.infer_unused {first second : Expr}
    (unused : ∀ name ∈ first.definedNames, name ∉ second.free) (context : Context) :
    second.infer (context.extendPairs first.definition) = second.infer context := by
  refine second.infer_agree fun name free => Context.lookup_outer (fun defined => ?_) context
  rw [first.map_fst_definition] at defined
  exact unused name defined free

/-- Different names may be defined in any order. -/
theorem Context.lookup_commute {first second : Expr} (independent : first.Independent second)
    (context : Context) (name : String) :
    ((context.extendPairs first.definition).extendPairs second.definition).lookup? name =
      ((context.extendPairs second.definition).extendPairs first.definition).lookup? name := by
  by_cases bySecond : name ∈ second.definition.map Prod.fst
  · have notByFirst : name ∉ first.definition.map Prod.fst := by
      rw [second.map_fst_definition] at bySecond
      rw [first.map_fst_definition]
      exact fun byFirst => independent.apart name byFirst bySecond
    rw [lookup_outer notByFirst, (lookup_inner bySecond _).1, (lookup_inner bySecond _).1]
  · rw [lookup_outer bySecond]
    by_cases byFirst : name ∈ first.definition.map Prod.fst
    · rw [(lookup_inner byFirst _).1, (lookup_inner byFirst _).1]
    · rw [lookup_outer byFirst, lookup_outer byFirst, lookup_outer bySecond]

/-- At the beginning of a sequence two independent expressions may be checked in either order.
After them the contexts look alike and the counts have met again. -/
theorem neighbours_commute {first second : Expr} {after : List Expr} {context : Context}
    (independent : first.Independent second)
    (admissible : ∀ expr ∈ first :: second :: after, expr.Admissible)
    (written : ∀ expr ∈ first :: second :: after, expr.Plain) (plain : context.Plain)
    (notLast : after ≠ []) (count : Nat) (type : Ty) :
    (inferSequence (second :: first :: after) context count).result = .ok type ↔
      (inferSequence (first :: second :: after) context count).result = .ok type := by
  have firstShifted := Expr.infer_shifted (admissible first (by simp)) (written first (by simp))
    plain count (Expr.namesFor second.nodes)
  have secondShifted := Expr.infer_shifted (admissible second (by simp)) (written second (by simp))
    plain count (Expr.namesFor first.nodes)
  have rest : inferSequence after
      ((context.extendPairs second.definition).extendPairs first.definition) =
      inferSequence after
        ((context.extendPairs first.definition).extendPairs second.definition) :=
    inferSequence_agree after (fun name _ => Context.lookup_commute independent.symm context name)
      fun empty => absurd empty notLast
  rw [inferSequence_ok_iff (by simp), inferSequence_ok_iff notLast, inferSequence_ok_iff (by simp),
    inferSequence_ok_iff notLast, Expr.infer_unused independent.unusedBySecond,
    Expr.infer_unused independent.unusedByFirst, firstShifted, secondShifted, rest,
    Nat.add_right_comm]
  exact and_left_comm

/-- The expressions before the two are checked as they were. -/
theorem neighbours_commute_within {first second : Expr} {before after : List Expr}
    {context : Context} (independent : first.Independent second)
    (admissible : ∀ expr ∈ before ++ first :: second :: after, expr.Admissible)
    (written : ∀ expr ∈ before ++ first :: second :: after, expr.Plain) (plain : context.Plain)
    (notLast : after ≠ []) (count : Nat) (type : Ty) :
    (inferSequence (before ++ second :: first :: after) context count).result = .ok type ↔
      (inferSequence (before ++ first :: second :: after) context count).result = .ok type := by
  induction before generalizing context count with
  | nil => exact neighbours_commute independent admissible written plain notLast count type
  | cons expr before ih =>
    obtain ⟨exprAdmissible, laterAdmissible⟩ := List.forall_mem_cons.mp admissible
    obtain ⟨exprWritten, laterWritten⟩ := List.forall_mem_cons.mp written
    rw [List.cons_append, List.cons_append, inferSequence_ok_iff (by simp),
      inferSequence_ok_iff (by simp),
      ih laterAdmissible laterWritten (plain.define exprAdmissible exprWritten)]

/-- In a program that has been parsed and is written without generated names, neighbours that are
independent of each other and not last can change places: the program is accepted as before, with
the same type. -/
theorem independent_expressions_commute {source : String} {program before after : Program}
    {first second : Expr} (parsed : Program.parse source = .ok program)
    (here : program = before ++ first :: second :: after) (notLast : after ≠ [])
    (written : ∀ expr ∈ program, ∀ name ∈ expr.variables, ∀ n, name ≠ generatedName n)
    (independent : first.Independent second) (type : Ty) :
    (Program.check (before ++ second :: first :: after)).result = .ok type ↔
      program.check.result = .ok type := by
  obtain ⟨_, wellFormed⟩ := program_parse_well_formed parsed
  have admissible : ∀ expr ∈ program, expr.Admissible :=
    fun expr listed => (wellFormed expr listed).admissible
  subst here
  exact neighbours_commute_within independent admissible written Context.plain_empty notLast 0 type

/-- A conditional between two operators, which creates three names, and a definition that hides an
earlier one. -/
theorem operators_and_definition_commute :
    let source := "(define (x : T) x) (if #t number? eq?) (define (x : number) 1) display"
    let before : Program := [.define ⟨0, 18⟩ ⟨"x", .named ⟨13, 14⟩ "T"⟩ (.identifier ⟨16, 17⟩ "x")]
    let choice : Expr := .conditional ⟨19, 38⟩ (.boolean ⟨23, 25⟩ true)
      (.primitive ⟨26, 33⟩ "number?") (.primitive ⟨34, 37⟩ "eq?")
    let hidden : Expr := .define ⟨39, 62⟩ ⟨"x", .number ⟨52, 58⟩⟩
      (.number ⟨60, 61⟩ (Number.ofNumeral ['1']))
    let after : Program := [.primitive ⟨63, 70⟩ "display"]
    let program := before ++ choice :: hidden :: after
    Program.parse source = .ok program ∧ choice.Independent hidden ∧
      program.check.result = .ok (.proc [.var "'d"] .void) ∧
      (Program.check (before ++ hidden :: choice :: after)).result =
        .ok (.proc [.var "'d"] .void) := by
  intro source before choice hidden after program
  have parsed : Program.parse source = .ok program := by
    simp only [source, program, before, choice, hidden, after]
    rfl
  have accepted : program.check.result = .ok (.proc [.var "'d"] .void) := by decide +kernel
  have written : ∀ expr ∈ program, ∀ name ∈ expr.variables, ∀ n, name ≠ generatedName n := by
    have onlyT : program.flatMap Expr.variables = ["T"] := rfl
    intro expr listed name inExpr n same
    have isT : name ∈ program.flatMap Expr.variables := List.mem_flatMap.mpr ⟨expr, listed, inExpr⟩
    rw [onlyT, List.mem_singleton, same] at isT
    simpa [generatedName] using congrArg String.toList isT
  have independent : choice.Independent hidden := by
    refine ⟨fun _ defined => ?_, fun _ _ free => ?_, fun _ defined => ?_⟩
    · cases defined
    · cases free
    · cases defined
  exact ⟨parsed, independent, accepted,
    (independent_expressions_commute parsed rfl (by simp [after]) written independent _).mpr
      accepted⟩

end TypedForms
