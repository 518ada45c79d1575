import TypedForms.Proofs.PrintedTrees

/-! Printing and parsing are inverse to each other up to places.  A text that is
spelled by derivable tokens is scanned into those tokens at the places where they
stand, and the parser accepts exactly what is derived.
-/
namespace TypedForms

/-- The tokens of a spelled text are derived where they stand. -/
private theorem scanned_derivation {wrap : α → Phrase} {bare : α → β}
    (spelled : SpelledAs wrap bare item source.toList)
    (moved : ∀ {lexemes others item}, DerivesAnywhere lexemes (wrap item) →
      SameTokens others lexemes → ∃ other, Derives others (wrap other) ∧ bare other = bare item) :
    (Token.scan source).invalid = none ∧
      ∃ other, Derives (Token.scan source).lexemes (wrap other) ∧ bare other = bare item := by
  obtain ⟨lexemes, written, derived, same, spells⟩ := spelled
  obtain ⟨valid, tokens⟩ := Token.scan_spelled spells
  obtain ⟨other, placed, sameOther⟩ := moved (derives_anywhere derived) tokens
  exact ⟨valid, other, placed, sameOther.trans same⟩

theorem ascription_reads_back {type : Ascription} (wellFormed : type.WellFormed) :
    ∃ other, Ascription.parse type.text = .ok other ∧ other.unplaced = type.unplaced := by
  obtain ⟨valid, other, derived, same⟩ :=
    scanned_derivation (Ascription.spelled wellFormed) DerivesAnywhere.ascription
  exact ⟨other, ascription_parse_iff.mpr ⟨valid, derived⟩, same⟩

theorem expr_reads_back {expr : Expr} (wellFormed : expr.WellFormed Number.IsFinite) :
    ∃ other, Expr.parse expr.text = .ok other ∧ other.unplaced = expr.unplaced := by
  obtain ⟨valid, other, derived, same⟩ :=
    scanned_derivation (Expr.spelled wellFormed) DerivesAnywhere.expr
  exact ⟨other, expr_parse_iff.mpr ⟨valid, derived⟩, same⟩

theorem program_reads_back {program : Program}
    (wellFormed : Program.WellFormed Number.IsFinite program) :
    ∃ other, Program.parse (Program.text program) = .ok other ∧
      other.map Expr.unplaced = program.map Expr.unplaced := by
  obtain ⟨nonempty, formed⟩ := wellFormed
  have spelled : SpelledAs (fun others => .pieces (others.map .expr)) (List.map Expr.unplaced)
      program (Program.text program).toList := by
    rw [Program.text, Expr.texts_eq_map]
    exact spelled_joined (by rfl) (by decide) fun expr member => Expr.spelled (formed expr member)
  obtain ⟨valid, other, derived, same⟩ :=
    scanned_derivation spelled fun anywhere => anywhere.items unplaced_expr
  have otherNonempty := Expr.ne_nil_of_unplaced same nonempty
  exact ⟨other, program_parse_iff.mpr ⟨valid, otherNonempty, derived⟩, same⟩

/-- The text of a well formed tree with finite numbers is parsed into the same tree up to places,
and whatever is parsed is well formed, except that a number may have become an infinity. -/
theorem printing_inverts_parsing :
    (∀ program : Program, Program.WellFormed Number.IsFinite program →
      ∃ other, Program.parse (Program.text program) = .ok other ∧
        other.map Expr.unplaced = program.map Expr.unplaced) ∧
    (∀ expr : Expr, expr.WellFormed Number.IsFinite →
      ∃ other, Expr.parse expr.text = .ok other ∧ other.unplaced = expr.unplaced) ∧
    (∀ type : Ascription, type.WellFormed →
      ∃ other, Ascription.parse type.text = .ok other ∧ other.unplaced = type.unplaced) ∧
    (∀ source program, Program.parse source = .ok program →
      Program.WellFormed (· ≠ .nan) program) ∧
    (∀ source expr, Expr.parse source = .ok expr → expr.WellFormed (· ≠ .nan)) ∧
    (∀ source type, Ascription.parse source = .ok type → type.WellFormed) :=
  ⟨fun _ => program_reads_back, fun _ => expr_reads_back, fun _ => ascription_reads_back,
    fun _ _ => program_parse_well_formed, fun _ _ => expr_parse_well_formed,
    fun _ _ => ascription_parse_well_formed⟩

/-- A definition with a union, a negative zero and an escaped quote. -/
theorem definition_inverts_parsing :
    let program : Program := [.define .origin ⟨"list", .union .origin
        [.named .origin "a->b", .proc .origin [.number .origin, .void .origin] (.string .origin)]⟩
      (.application .origin (.primitive .origin "*")
        [.number .origin (.finite true ⟨0, by decide⟩), .string .origin "\\\""])]
    Program.WellFormed Number.IsFinite program ∧
      ∃ other, Program.parse (Program.text program) = .ok other ∧
        other.map Expr.unplaced = program.map Expr.unplaced ∧
        Program.WellFormed (· ≠ .nan) other := by
  intro program
  have wellFormed : Program.WellFormed Number.IsFinite program := by
    have names : Token.LegalName "list" ∧ Token.LegalName "a->b" := by decide
    have quotable : Token.IsQuotable ['\\', '"'] := .escaped (by decide) .done
    simp [program, Program.WellFormed, Expr.WellFormed, Expr.All, Expr.nodes, Expr.WellFormedAt,
      TypedVar.WellFormed, Ascription.WellFormed, Ascription.All, Ascription.nodes,
      Ascription.WellFormedAt, Number.IsFinite, Expr.primitiveNames, names, quotable]
  obtain ⟨other, parsed, same⟩ := printing_inverts_parsing.1 program wellFormed
  exact ⟨wellFormed, other, parsed, same, printing_inverts_parsing.2.2.2.1 _ _ parsed⟩

end TypedForms
