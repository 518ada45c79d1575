import TypedForms.Proofs.GrammarSoundness
import TypedForms.Proofs.SplitTexts

/-! The parser accepts exactly the language of the grammar.

A text can be read as an ascription, as one expression or as a program.  For each
of the three the parser gives a tree exactly when the text splits completely into
tokens that are derived as that tree, and no sequence of tokens is derived as two
trees.
-/
namespace TypedForms

open TypedForms.Parser

/-- What a whole text can be read as. -/
inductive StartSymbol where
  | ascription
  | expr
  | program

namespace StartSymbol

/-- The trees of a start symbol. -/
def Tree : StartSymbol → Type
  | .ascription => Ascription
  | .expr => Expr
  | .program => Program

/-- Reads a text as the start symbol. -/
def parse : (start : StartSymbol) → String → Except ParseError start.Tree
  | .ascription => Ascription.parse
  | .expr => Expr.parse
  | .program => Program.parse

/-- The tokens are derived as the tree.  A program is one or more expressions. -/
def Derives : (start : StartSymbol) → List Lexeme → start.Tree → Prop
  | .ascription, lexemes, (tree : Ascription) => TypedForms.Derives lexemes (.ascription tree)
  | .expr, lexemes, (tree : Expr) => TypedForms.Derives lexemes (.expr tree)
  | .program, lexemes, (tree : Program) =>
    tree ≠ [] ∧ TypedForms.Derives lexemes (.pieces (tree.map .expr))

/-- The form that reading begins with. -/
def form : StartSymbol → OpenForm
  | .ascription => .ascription none
  | .expr => .expression none
  | .program => .program []

/-- The tree of a finished reading. -/
def finished? : (start : StartSymbol) → List OpenForm → Option start.Tree
  | .ascription => finishedAscription?
  | .expr => finishedExpr?
  | .program => finishedProgram?

theorem parse_eq_read (start : StartSymbol) (source : String) :
    start.parse source = read start.form start.finished? source := by
  cases start <;> rfl

/-- Taking the tokens finishes with a tree exactly when they are derived as it. -/
theorem taken_iff {start : StartSymbol} {tree : start.Tree} :
    (∃ reached, takeAll [start.form] lexemes = .ok reached ∧
      start.finished? reached = some tree) ↔ start.Derives lexemes tree := by
  cases start with
  | ascription => exact ascription_taken_iff
  | expr => exact expr_taken_iff
  | program => exact program_taken_iff

/-- Reading is a function, so the grammar is not ambiguous. -/
theorem derives_unique {start : StartSymbol} {tree other : start.Tree}
    (derived : start.Derives lexemes tree) (derivedOther : start.Derives lexemes other) :
    tree = other := by
  obtain ⟨reached, taken, finished⟩ := taken_iff.mpr derived
  obtain ⟨reachedOther, takenOther, finishedOther⟩ := taken_iff.mpr derivedOther
  rw [taken] at takenOther
  cases takenOther
  rw [finished] at finishedOther
  exact Option.some.inj finishedOther

theorem parse_iff {start : StartSymbol} {tree : start.Tree} : start.parse source = .ok tree ↔
    ∃ lexemes, Token.SplitsInto source lexemes ∧ start.Derives lexemes tree := by
  rw [parse_eq_read, read_ok_iff, taken_iff]
  constructor
  · rintro ⟨valid, derived⟩
    exact ⟨_, Token.splitsInto_iff.mpr (by rw [← valid]), derived⟩
  · rintro ⟨lexemes, splits, derived⟩
    rw [Token.splitsInto_iff.mp splits]
    exact ⟨rfl, derived⟩

end StartSymbol

/-- Parsing gives a tree exactly when the text splits completely into blanks and longest matches and
the tokens are derived as the tree; and tokens are derived as one tree at most. -/
theorem parser_accepts_grammar (start : StartSymbol) :
    (∀ source tree, start.parse source = .ok tree ↔
      ∃ lexemes, Token.SplitsInto source lexemes ∧ start.Derives lexemes tree) ∧
    ∀ lexemes tree other, start.Derives lexemes tree → start.Derives lexemes other →
      tree = other :=
  ⟨fun _ _ => StartSymbol.parse_iff, fun _ _ _ => StartSymbol.derives_unique⟩

/-- A union of a name that begins like a keyword and of a procedure type without parameters. -/
theorem union_text_accepted :
    let source := "(union number->T (Empty -> a))"
    let lexemes : List Lexeme := [⟨.keyword .leftParen, 0⟩, ⟨.keyword .union, 1⟩,
      ⟨.name "number->T", 7⟩, ⟨.keyword .leftParen, 17⟩, ⟨.keyword .empty, 18⟩,
      ⟨.keyword .arrow, 24⟩, ⟨.name "a", 27⟩, ⟨.keyword .rightParen, 28⟩,
      ⟨.keyword .rightParen, 29⟩]
    let tree : Ascription := .union ⟨0, 30⟩
      [.named ⟨7, 16⟩ "number->T", .proc ⟨17, 29⟩ [] (.named ⟨27, 28⟩ "a")]
    Token.SplitsInto source lexemes ∧ StartSymbol.ascription.Derives lexemes tree ∧
      StartSymbol.ascription.parse source = .ok tree ∧
      ∀ other, StartSymbol.ascription.Derives lexemes other → other = tree := by
  intro source lexemes tree
  have splits : Token.SplitsInto source lexemes := Token.splitsInto_iff.mpr (by decide +kernel)
  have procedure : Derives [⟨.keyword .leftParen, 17⟩, ⟨.keyword .empty, 18⟩,
      ⟨.keyword .arrow, 24⟩, ⟨.name "a", 27⟩, ⟨.keyword .rightParen, 28⟩]
      (.ascription (.proc ⟨17, 29⟩ [] (.named ⟨27, 28⟩ "a"))) :=
    .procType rfl (.noParams rfl) rfl (.namedType rfl) rfl
  have members : Derives _ (.pieces (List.map .ascription
      [.named ⟨7, 16⟩ "number->T", .proc ⟨17, 29⟩ [] (.named ⟨27, 28⟩ "a")])) :=
    .next (@Derives.namedType ⟨.name "number->T", 7⟩ _ rfl) (.next procedure .nothing)
  have derived : StartSymbol.ascription.Derives lexemes tree :=
    @Derives.unionType _ ⟨.keyword .leftParen, 0⟩ ⟨.keyword .union, 1⟩ ⟨.keyword .rightParen, 29⟩ _
      rfl rfl members (by decide) rfl
  obtain ⟨accepts, unambiguous⟩ := parser_accepts_grammar .ascription
  exact ⟨splits, derived, (accepts source tree).mpr ⟨lexemes, splits, derived⟩,
    fun other derivedOther => unambiguous lexemes other tree derivedOther derived⟩

end TypedForms
