import TypedForms.Proofs.Layouts
import TypedForms.Proofs.TreeRoundTrip

/-! What the text of a program means.

A numeral that is too great for the format stands for an infinity, and the text
of an infinity is a name.  Everything else is read back as it was.  So the text
of a program means what the program means with names in the place of its infinite
numbers, and without such numbers it means what the source does.
-/
namespace TypedForms

/-! ## Programs as their texts are read -/

namespace Expr

/-- A number as its text is read.  A value that no numeral has is written as a name. -/
def ofNumber (range : Range) : Number → Expr
  | .finite negative rank => .number range (.finite negative rank)
  | value => .identifier range value.text

mutual

/-- The expression as its text is read. -/
def reread : Expr → Expr
  | .number range value => ofNumber range value
  | .conditional range test thenBranch elseBranch =>
    .conditional range test.reread thenBranch.reread elseBranch.reread
  | .lambda range params result body => .lambda range params result (rereadAll body)
  | .application range operator operands =>
    .application range operator.reread (rereadAll operands)
  | .letForm range bindings body => .letForm range (rereadBindings bindings) (rereadAll body)
  | .letrecForm range bindings body => .letrecForm range (rereadBindings bindings) (rereadAll body)
  | .define range var value => .define range var value.reread
  | expr => expr

/-- The expressions of a list as their texts are read. -/
def rereadAll : List Expr → List Expr
  | [] => []
  | first :: rest => first.reread :: rereadAll rest

/-- The bindings of a list as their texts are read. -/
def rereadBindings : List Binding → List Binding
  | [] => []
  | .mk var value :: rest => .mk var value.reread :: rereadBindings rest

end

theorem rereadAll_eq_map (list : List Expr) : rereadAll list = list.map reread := by
  induction list with
  | nil => rfl
  | cons first rest ih => simp [rereadAll, ih]

theorem rereadBindings_eq_map (list : List Binding) :
    rereadBindings list = list.map fun binding => .mk binding.var binding.value.reread := by
  induction list with
  | nil => rfl
  | cons first rest ih =>
    obtain ⟨var, value⟩ := first
    simp [rereadBindings, ih, Binding.var, Binding.value]

theorem text_ofNumber (range : Range) (value : Number) :
    (ofNumber range value).text = value.text := by
  cases value <;> rfl

private theorem texts_reread {exprs : List Expr}
    (same : ∀ expr ∈ exprs, expr.reread.text = expr.text) :
    texts (rereadAll exprs) = texts exprs := by
  rw [rereadAll_eq_map, texts_eq_map, texts_eq_map, List.map_map]
  exact List.map_congr_left same

private theorem bindingTexts_reread {bindings : List Binding}
    (same : ∀ binding ∈ bindings, binding.value.reread.text = binding.value.text) :
    bindingTexts (rereadBindings bindings) = bindingTexts bindings := by
  rw [rereadBindings_eq_map, bindingTexts_eq_map, bindingTexts_eq_map, List.map_map]
  refine List.map_congr_left fun binding listed => ?_
  have valueText : (Binding.mk binding.var binding.value.reread).value.text = binding.value.text :=
    same binding listed
  rw [Function.comp_apply, valueText]
  rfl

theorem text_reread (expr : Expr) : expr.reread.text = expr.text := by
  induction expr with
  | number range value => exact text_ofNumber range value
  | boolean | string | identifier | primitive => rfl
  | conditional range test thenBranch elseBranch testText thenText elseText =>
    simp only [reread, text, testText, thenText, elseText]
  | lambda range params result body bodyTexts =>
    simp only [reread, text, texts_reread bodyTexts]
  | application range operator operands operatorText operandTexts =>
    cases operands with
    | nil => simp only [reread, rereadAll, text, operatorText]
    | cons operand operands =>
      obtain ⟨operandText, laterTexts⟩ := List.forall_mem_cons.mp operandTexts
      simp only [reread, rereadAll, text, operatorText, operandText, texts_reread laterTexts]
  | letForm range bindings body valueTexts bodyTexts
  | letrecForm range bindings body valueTexts bodyTexts =>
    simp only [reread, text, bindingTexts_reread valueTexts, texts_reread bodyTexts]
  | define range var value valueText => simp only [reread, text, valueText]

/-- The names that stand for numbers can be written. -/
theorem ofNumber_wellFormed (range : Range) (value : Number) :
    (ofNumber range value).WellFormed Number.IsFinite := by
  have legal : ∀ name ∈ ["NaN", "inf", "-inf"],
      Token.LegalName name ∧ name ∉ primitiveNames := by decide
  cases value with
  | finite negative rank => exact (all_leaf rfl).mpr trivial
  | nan => exact (all_leaf rfl).mpr (legal "NaN" (by simp))
  | infinite negative =>
    cases negative with
    | true => exact (all_leaf rfl).mpr (legal "-inf" (by simp))
    | false => exact (all_leaf rfl).mpr (legal "inf" (by simp))

/-- What a text is read as has finite numbers only. -/
theorem reread_wellFormed {suits : Number → Prop} {expr : Expr}
    (wellFormed : expr.WellFormed suits) : expr.reread.WellFormed Number.IsFinite := by
  induction expr with
  | number range value => exact ofNumber_wellFormed range value
  | boolean | string | identifier | primitive =>
    have formed := (all_leaf rfl).mp wellFormed
    exact (all_leaf rfl).mpr formed
  | conditional range test thenBranch elseBranch testFormed thenFormed elseFormed =>
    obtain ⟨_, ofTest, ofThen, ofElse⟩ := all_conditional.mp wellFormed
    exact all_conditional.mpr ⟨trivial, testFormed ofTest, thenFormed ofThen, elseFormed ofElse⟩
  | lambda range params result body bodyFormed =>
    obtain ⟨⟨ofParams, ofResult, nonempty⟩, ofBody⟩ := all_lambda.mp wellFormed
    rw [reread, rereadAll_eq_map]
    refine all_lambda.mpr ⟨⟨ofParams, ofResult, by simpa using nonempty⟩, ?_⟩
    exact List.forall_mem_map.mpr fun expr listed => bodyFormed expr listed (ofBody expr listed)
  | application range operator operands operatorFormed operandsFormed =>
    obtain ⟨_, ofOperator, ofOperands⟩ := all_application.mp wellFormed
    rw [reread, rereadAll_eq_map]
    refine all_application.mpr ⟨trivial, operatorFormed ofOperator, ?_⟩
    exact List.forall_mem_map.mpr fun operand listed =>
      operandsFormed operand listed (ofOperands operand listed)
  | letForm range bindings body valuesFormed bodyFormed =>
    obtain ⟨⟨ofVars, nonempty⟩, ofValues, ofBody⟩ := all_letForm.mp wellFormed
    rw [reread, rereadAll_eq_map, rereadBindings_eq_map]
    refine all_letForm.mpr ⟨⟨List.forall_mem_map.mpr ofVars, by simpa using nonempty⟩, ?_, ?_⟩
    · exact List.forall_mem_map.mpr fun binding listed =>
        valuesFormed binding listed (ofValues binding listed)
    · exact List.forall_mem_map.mpr fun expr listed => bodyFormed expr listed (ofBody expr listed)
  | letrecForm range bindings body valuesFormed bodyFormed =>
    obtain ⟨⟨ofVars, nonempty⟩, ofValues, ofBody⟩ := all_letrecForm.mp wellFormed
    rw [reread, rereadAll_eq_map, rereadBindings_eq_map]
    refine all_letrecForm.mpr ⟨⟨List.forall_mem_map.mpr ofVars, by simpa using nonempty⟩, ?_, ?_⟩
    · exact List.forall_mem_map.mpr fun binding listed =>
        valuesFormed binding listed (ofValues binding listed)
    · exact List.forall_mem_map.mpr fun expr listed => bodyFormed expr listed (ofBody expr listed)
  | define range var value valueFormed =>
    obtain ⟨ofVar, ofValue⟩ := all_define.mp wellFormed
    exact all_define.mpr ⟨ofVar, valueFormed ofValue⟩

/-- Every number in the expression is finite. -/
def FiniteNumbers (expr : Expr) : Prop :=
  ∀ place value, .number place value ∈ expr.nodes → value.IsFinite

theorem WellFormed.finite {suits : Number → Prop} {expr : Expr} (wellFormed : expr.WellFormed suits)
    (finite : expr.FiniteNumbers) : expr.WellFormed Number.IsFinite := by
  intro node listed
  have formed := wellFormed node listed
  cases node with
  | number place value => exact finite place value listed
  | _ => exact formed

end Expr

/-! ## What is said of a printed program -/

/-- What is said of a program: the text of its type, or the message of its error. -/
def Program.verdict (program : Program) : Except String String :=
  (program.check.finding.mapError TypeError.Cause.message).map Ty.text

theorem Program.verdict_unplaced (program : Program) :
    Program.verdict (program.map Expr.unplaced) = program.verdict := by
  rw [verdict, verdict, program.check_unplaced]

/-- A text is told the verdict of the program that it is read as. -/
theorem typeOfSource_verdict (parsed : Program.parse source = .ok program) :
    (typeOfSource source).mapError Diagnostic.message = Program.verdict program := by
  have read : StartSymbol.program.reading source = .ok (program.map Expr.unplaced) := by
    simp only [StartSymbol.reading, StartSymbol.parse, parsed]
    rfl
  rw [typeOfSource_eq_reading, read, ← program.verdict_unplaced]
  rfl

/-- A text that is read back as a program up to places is told the verdict of that program. -/
theorem printed_verdict {program : Program}
    (wellFormed : Program.WellFormed Number.IsFinite program) :
    (typeOfSource (Program.text program)).mapError Diagnostic.message = program.verdict := by
  obtain ⟨other, parsed, same⟩ := program_reads_back wellFormed
  rw [typeOfSource_verdict parsed, ← Program.verdict_unplaced, same, Program.verdict_unplaced]

theorem Program.text_reread (program : Program) :
    Program.text (program.map Expr.reread) = program.text := by
  rw [Program.text, Program.text, Expr.texts_eq_map, Expr.texts_eq_map, List.map_map]
  exact congrArg _ (List.map_congr_left fun expr _ => expr.text_reread)

/-- The text of a program is told what the program is told with names in the place of its infinite
numbers.  Where all numbers are finite that is what the source is told. -/
theorem printed_programs_keep_verdict {source : String} {program : Program}
    (parsed : Program.parse source = .ok program) :
    (typeOfSource program.text).mapError Diagnostic.message =
      Program.verdict (program.map Expr.reread) ∧
    ((∀ expr ∈ program, expr.FiniteNumbers) →
      (typeOfSource program.text).mapError Diagnostic.message =
        (typeOfSource source).mapError Diagnostic.message) := by
  obtain ⟨nonempty, formed⟩ := program_parse_well_formed parsed
  constructor
  · have rereadFormed : Program.WellFormed Number.IsFinite (program.map Expr.reread) :=
      ⟨by simpa using nonempty,
        List.forall_mem_map.mpr fun expr listed => Expr.reread_wellFormed (formed expr listed)⟩
    rw [← program.text_reread]
    exact printed_verdict rereadFormed
  · intro finite
    have finiteFormed : Program.WellFormed Number.IsFinite program :=
      ⟨nonempty, fun expr listed => (formed expr listed).finite (finite expr listed)⟩
    rw [printed_verdict finiteFormed, typeOfSource_verdict parsed]

instance : DecidablePred Number.IsFinite
  | .finite _ _ => .isTrue trivial
  | .nan | .infinite _ => .isFalse id

/-- Redundant digits are missing in the text of a sum, and what is said of it stays. -/
theorem padded_numerals_keep_verdict :
    let source := "(+ 0.10 -007)"
    let program : Program := [.application ⟨0, 13⟩ (.primitive ⟨1, 2⟩ "+")
      [.number ⟨3, 7⟩ (Number.ofNumeral ['0', '.', '1', '0']),
        .number ⟨8, 12⟩ (Number.ofNumeral ['-', '0', '0', '7'])]]
    Program.parse source = .ok program ∧ (∀ expr ∈ program, expr.FiniteNumbers) ∧
      program.text = "(+ 0.1 -7)" ∧
      (typeOfSource program.text).mapError Diagnostic.message = .ok "number" := by
  intro source program
  have parsed : Program.parse source = .ok program := by
    simp only [source, program]
    rfl
  have finite : ∀ expr ∈ program, expr.FiniteNumbers := by
    intro expr listed place value inside
    have either : value = Number.ofNumeral ['0', '.', '1', '0'] ∨
        value = Number.ofNumeral ['-', '0', '0', '7'] := by
      rw [List.mem_singleton.mp listed] at inside
      simp only [Expr.nodes, Expr.nodesAll, List.mem_cons, List.mem_append, List.not_mem_nil,
        reduceCtorEq, Expr.number.injEq, false_or, or_false] at inside
      exact inside.imp And.right And.right
    rcases either with isValue | isValue <;> rw [isValue] <;> decide +kernel
  have typed : typeOfSource source = .ok "number" := by decide +kernel
  refine ⟨parsed, finite, by decide +kernel, ?_⟩
  rw [(printed_programs_keep_verdict parsed).2 finite, typed]
  rfl

/-! ## Numerals that are too great -/

theorem numeral_parses (numeral : Token.IsNumeral source.toList) :
    ∃ place, Program.parse source = .ok [.number place (Number.ofNumeral source.toList)] := by
  have alone := Token.numeral_reads_alone numeral
  rw [String.ofList_toList] at alone
  have spelled : Token.Spells source.toList [.numeral source] := Token.spells_token alone
  obtain ⟨valid, tokens⟩ := Token.scan_spelled spelled
  obtain ⟨lexeme, _, scanned, word, empty⟩ := List.map_eq_cons_iff.mp tokens
  rw [List.map_eq_nil_iff.mp empty] at scanned
  refine ⟨lexeme.range, program_parse_iff.mpr ⟨valid, by simp, ?_⟩⟩
  rw [scanned]
  exact .next (.numeral word) .nothing

/-- A numeral that is too great for the format is a number, but its text is a name that nothing
binds. -/
theorem great_numeral_loses_verdict (numeral : Token.IsNumeral source.toList)
    (great : Number.ofNumeral source.toList = .infinite negative) :
    ∃ program, Program.parse source = .ok program ∧ typeOfSource source = .ok "number" ∧
      (typeOfSource program.text).mapError Diagnostic.message =
        .error ("unbound variable '" ++ Number.sign negative ++ "inf'") := by
  obtain ⟨place, parsed⟩ := numeral_parses numeral
  rw [great] at parsed
  refine ⟨_, parsed, ?_, ?_⟩
  · rw [typeOfSource, parsed]
    rfl
  · change (typeOfSource (Number.infinite negative).text).mapError _ = _
    cases negative <;> decide +kernel

/-- The least power of ten that is too great. -/
theorem overflowing_numeral_loses_verdict :
    let source := String.ofList ('1' :: List.replicate 309 '0')
    ∃ program, Program.parse source = .ok program ∧ typeOfSource source = .ok "number" ∧
      (typeOfSource program.text).mapError Diagnostic.message =
        .error "unbound variable 'inf'" := by
  intro source
  have chars : source.toList = '1' :: List.replicate 309 '0' := String.toList_ofList
  have digits : Token.IsDigits source.toList := by
    rw [chars]
    refine ⟨List.cons_ne_nil _ _, List.forall_mem_cons.mpr ⟨by decide, fun c listed => ?_⟩⟩
    rw [List.eq_of_mem_replicate listed]
    decide
  have numeral : Token.IsNumeral source.toList := .positive (.whole digits)
  have great : Number.ofNumeral source.toList = .infinite false := by
    rw [chars]
    decide +kernel
  exact great_numeral_loses_verdict numeral great

end TypedForms
