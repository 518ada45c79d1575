import TypedForms.Proofs.GrammarSoundness
import TypedForms.Proofs.TokenStability
import TypedForms.Proofs.TreeNodes

/-! Trees that can be written down.

A tree is well formed when its names are legal, its strings can stand between
quotes, its bodies are not empty and its unions have two members or more.  The
conditions are those of single nodes, asked of every node.  What the parser
returns is well formed: every token that the lexer finds is one that reads alone.
-/
namespace TypedForms

namespace Ascription

/-- What a node of an ascription must satisfy by itself. -/
def WellFormedAt : Ascription → Prop
  | .named _ name => Token.LegalName name
  | .union _ members => 2 ≤ members.length
  | _ => True

/-- Every type variable is a legal name and every union has at least two members. -/
def WellFormed (ascription : Ascription) : Prop :=
  ascription.All WellFormedAt

end Ascription

/-- The name is legal and so is the type. -/
def TypedVar.WellFormed (var : TypedVar) : Prop :=
  Token.LegalName var.name ∧ var.type.WellFormed

namespace Expr

/-- What a node of an expression must satisfy by itself, given what is asked of numbers. -/
def WellFormedAt (suits : Number → Prop) : Expr → Prop
  | .number _ value => suits value
  | .string _ content => Token.IsQuotable content.toList
  | .identifier _ name => Token.LegalName name ∧ name ∉ primitiveNames
  | .primitive _ name => name ∈ primitiveNames
  | .lambda _ params result body =>
    (∀ var ∈ params, var.WellFormed) ∧ result.WellFormed ∧ body ≠ []
  | .letForm _ bindings body => (∀ binding ∈ bindings, binding.var.WellFormed) ∧ body ≠ []
  | .letrecForm _ bindings body => (∀ binding ∈ bindings, binding.var.WellFormed) ∧ body ≠ []
  | .define _ var _ => var.WellFormed
  | _ => True

/-- Every node is well formed and every number suits. -/
def WellFormed (suits : Number → Prop) (expr : Expr) : Prop :=
  expr.All (WellFormedAt suits)

end Expr

/-- A program has at least one expression and all its expressions are well formed. -/
def Program.WellFormed (suits : Number → Prop) (program : Program) : Prop :=
  program ≠ [] ∧ ∀ expr ∈ program, expr.WellFormed suits

/-- The finite values are those that have a numeral. -/
def Number.IsFinite : Number → Prop
  | .finite _ _ => True
  | _ => False

/-! ## What is derived -/

/-- The parts of the piece are well formed. -/
def Piece.WellFormed (suits : Number → Prop) : Piece → Prop
  | .expr value => value.WellFormed suits
  | .ascription value => value.WellFormed
  | .var value => value.WellFormed
  | .binding value => value.var.WellFormed ∧ value.value.WellFormed suits

/-- All parts of the phrase are well formed. -/
def Phrase.WellFormed (suits : Number → Prop) : Phrase → Prop
  | .piece finished => finished.WellFormed suits
  | .pieces list => ∀ piece ∈ list, piece.WellFormed suits
  | .params types => ∀ type ∈ types, type.WellFormed
  | .starred types => ∀ type ∈ types, type.WellFormed

theorem Phrase.wellFormed_items {suits : Number → Prop} {wrap : α → Piece} {items : List α}
    (wellFormed : (Phrase.pieces (items.map wrap)).WellFormed suits) :
    ∀ item ∈ items, (wrap item).WellFormed suits :=
  List.forall_mem_map.mp wellFormed

/-- A numeral may be too great for the format but is never undefined. -/
theorem Number.ofNumeral_ne_nan (chars : List Char) : ofNumeral chars ≠ .nan := by
  have unsigned : ∀ negative digits, ofUnsigned negative digits ≠ .nan := by
    intro negative digits
    simp only [ofUnsigned, ofDecimal, ofRank]
    split <;> simp
  unfold ofNumeral
  split <;> exact unsigned _ _

theorem Expr.ofName_wellFormed {suits : Number → Prop} (legal : Token.LegalName name)
    (range : Range) : (ofName range name).WellFormed suits := by
  unfold ofName
  split
  · rename_i listed
    exact (all_leaf rfl).mpr (List.contains_iff_mem.mp listed)
  · rename_i unlisted
    exact (all_leaf rfl).mpr ⟨legal, fun listed => unlisted (List.contains_iff_mem.mpr listed)⟩

/-- What is derived from tokens that read alone is well formed. -/
theorem derives_well_formed (derived : Derives lexemes phrase)
    (alone : ∀ lexeme ∈ lexemes, lexeme.token.ReadsAlone) : phrase.WellFormed (· ≠ .nan) := by
  induction derived with
  | numberType | booleanType | stringType | voidType => exact (Ascription.all_leaf rfl).mpr trivial
  | namedType word =>
    have read := alone _ List.mem_cons_self
    rw [word] at read
    exact (Ascription.all_leaf rfl).mpr (Token.legal_name_iff.mpr read)
  | noParams | noStarred | nothing => simp [Phrase.WellFormed]
  | numeral => exact (Expr.all_leaf rfl).mpr (Number.ofNumeral_ne_nan _)
  | yes | no => exact (Expr.all_leaf rfl).mpr trivial
  | quoted word =>
    have read := alone _ List.mem_cons_self
    rw [word] at read
    exact (Expr.all_leaf rfl).mpr (Token.quoted_reads_alone_iff.mp read)
  | name word =>
    have read := alone _ List.mem_cons_self
    rw [word] at read
    exact Expr.ofName_wellFormed (Token.legal_name_iff.mpr read) _
  | star => exact (Expr.all_leaf rfl).mpr (by decide : "*" ∈ Expr.primitiveNames)
  | var _ word _ _ _ type =>
    simp only [List.forall_mem_cons, List.forall_mem_append] at alone
    obtain ⟨_, read, _, inner, _⟩ := alone
    rw [word] at read
    exact ⟨Token.legal_name_iff.mpr read, type inner⟩
  | procType _ _ _ _ _ params result =>
    simp only [List.forall_mem_cons, List.forall_mem_append] at alone
    exact Ascription.all_proc.mpr ⟨trivial, params alone.2.1, result alone.2.2.2.1⟩
  | unionType _ _ _ enough _ members =>
    simp only [List.forall_mem_cons, List.forall_mem_append] at alone
    exact Ascription.all_union.mpr ⟨enough, Phrase.wellFormed_items (members alone.2.2.1)⟩
  | someParams _ _ param rest =>
    simp only [List.forall_mem_append] at alone
    exact List.forall_mem_cons.mpr ⟨param alone.1, rest alone.2⟩
  | nextStarred _ _ _ param rest =>
    simp only [List.forall_mem_cons, List.forall_mem_append] at alone
    exact List.forall_mem_cons.mpr ⟨param alone.2.1, rest alone.2.2⟩
  | next _ _ piece rest =>
    simp only [List.forall_mem_append] at alone
    exact List.forall_mem_cons.mpr ⟨piece alone.1, rest alone.2⟩
  | binding _ _ _ _ var value =>
    simp only [List.forall_mem_cons, List.forall_mem_append] at alone
    exact ⟨var alone.2.1, value alone.2.2.1⟩
  | define _ _ _ _ _ var value =>
    simp only [List.forall_mem_cons, List.forall_mem_append] at alone
    exact Expr.all_define.mpr ⟨var alone.2.2.1, value alone.2.2.2.1⟩
  | conditional _ _ _ _ _ _ test thenPart elsePart =>
    simp only [List.forall_mem_cons, List.forall_mem_append] at alone
    obtain ⟨_, _, first, second, third, _⟩ := alone
    exact Expr.all_conditional.mpr ⟨trivial, test first, thenPart second, elsePart third⟩
  | application _ _ _ _ head rest =>
    simp only [List.forall_mem_cons, List.forall_mem_append] at alone
    exact Expr.all_application.mpr
      ⟨trivial, head alone.2.1, Phrase.wellFormed_items (rest alone.2.2.1)⟩
  | lambda _ _ _ _ _ _ _ _ nonempty _ params result body =>
    simp only [List.forall_mem_cons, List.forall_mem_append] at alone
    obtain ⟨_, _, _, first, _, _, second, third, _⟩ := alone
    exact Expr.all_lambda.mpr ⟨⟨Phrase.wellFormed_items (params first), result second, nonempty⟩,
      Phrase.wellFormed_items (body third)⟩
  | letForm _ _ _ _ _ _ nonempty _ bindings body =>
    simp only [List.forall_mem_cons, List.forall_mem_append] at alone
    obtain ⟨_, _, _, first, _, second, _⟩ := alone
    have bound := Phrase.wellFormed_items (bindings first)
    exact Expr.all_letForm.mpr ⟨⟨fun binding member => (bound binding member).1, nonempty⟩,
      fun binding member => (bound binding member).2, Phrase.wellFormed_items (body second)⟩
  | letrecForm _ _ _ _ _ _ nonempty _ bindings body =>
    simp only [List.forall_mem_cons, List.forall_mem_append] at alone
    obtain ⟨_, _, _, first, _, second, _⟩ := alone
    have bound := Phrase.wellFormed_items (bindings first)
    exact Expr.all_letrecForm.mpr ⟨⟨fun binding member => (bound binding member).1, nonempty⟩,
      fun binding member => (bound binding member).2, Phrase.wellFormed_items (body second)⟩

/-! ## What the parser returns -/

theorem ascription_parse_well_formed (parsed : Ascription.parse source = .ok type) :
    type.WellFormed :=
  derives_well_formed (ascription_parse_iff.mp parsed).2 fun _ => Token.scanned_reads_alone

theorem expr_parse_well_formed (parsed : Expr.parse source = .ok expr) :
    expr.WellFormed (· ≠ .nan) :=
  derives_well_formed (expr_parse_iff.mp parsed).2 fun _ => Token.scanned_reads_alone

theorem program_parse_well_formed (parsed : Program.parse source = .ok program) :
    Program.WellFormed (· ≠ .nan) program := by
  obtain ⟨_, nonempty, derived⟩ := program_parse_iff.mp parsed
  exact ⟨nonempty, Phrase.wellFormed_items
    (derives_well_formed derived fun _ => Token.scanned_reads_alone)⟩

end TypedForms
