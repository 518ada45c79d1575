import TypedForms.Proofs.Terminals

/-! The terminals as regular expressions.

A terminal is written in the grammar as a text or as a regular expression.  Here
each of them is spelled out as such, apart from the character classes and the
keywords of the lexer, and given the language that regular expressions have.  It
is the language by which the longest match is defined.
-/
namespace TypedForms

open scoped Computability

/-- Regular expressions over characters. -/
inductive Pattern where
  | literal (text : String)
  /-- A character of one of the ranges, the ends included. -/
  | oneOf (ranges : List (Char × Char))
  /-- Any character but these. -/
  | noneOf (chars : List Char)
  | both (first second : Pattern)
  | either (first second : Pattern)
  | optional (inner : Pattern)
  | many (inner : Pattern)
  | oneOrMore (inner : Pattern)

namespace Pattern

/-- The code point of the character lies in the range. -/
def InRange (range : Char × Char) (c : Char) : Prop :=
  range.1.toNat ≤ c.toNat ∧ c.toNat ≤ range.2.toNat

/-- The texts that match a regular expression. -/
def language : Pattern → Language Char
  | .literal text => {text.toList}
  | .oneOf ranges => {text | ∃ c, text = [c] ∧ ∃ range ∈ ranges, InRange range c}
  | .noneOf chars => {text | ∃ c, text = [c] ∧ c ∉ chars}
  | .both first second => first.language * second.language
  | .either first second => first.language + second.language
  | .optional inner => 1 + inner.language
  | .many inner => inner.language∗
  | .oneOrMore inner => inner.language * inner.language∗

/-- The ranges of one character each. -/
def singles (chars : String) : List (Char × Char) :=
  chars.toList.map fun c => (c, c)

/-- The class `[0-9]`. -/
def digit : Pattern := .oneOf [('0', '9')]

/-- The ranges of letters and marks, with which a name begins. -/
def nameStart : List (Char × Char) :=
  [('a', 'z'), ('A', 'Z')] ++ singles "!$%&/<=>?^_~+-'"

/-- What a name goes on with: the same, digits and the point. -/
def nameRest : List (Char × Char) :=
  nameStart ++ [('0', '9'), ('.', '.')]

end Pattern

namespace Terminal

/-- The regular expressions and texts of the grammar. -/
def pattern : Terminal → Pattern
  | .numeral => .both (.optional (.literal "-")) (.both (.oneOrMore .digit)
      (.optional (.both (.literal ".") (.oneOrMore .digit))))
  | .name => .both (.oneOf Pattern.nameStart) (.many (.oneOf Pattern.nameRest))
  | .quoted => .both (.literal "\"") (.both
      (.many (.either (.noneOf ['"', '\\']) (.both (.literal "\\") (.noneOf ['\n']))))
      (.literal "\""))
  | .keyword .ifWord => .literal "if"
  | .keyword .lambda => .literal "lambda"
  | .keyword .letWord => .literal "let"
  | .keyword .letrec => .literal "letrec"
  | .keyword .define => .literal "define"
  | .keyword .union => .literal "union"
  | .keyword .empty => .literal "Empty"
  | .keyword .number => .literal "number"
  | .keyword .boolean => .literal "boolean"
  | .keyword .string => .literal "string"
  | .keyword .void => .literal "void"
  | .keyword .arrow => .literal "->"
  | .keyword .star => .literal "*"
  | .keyword .colon => .literal ":"
  | .keyword .leftParen => .literal "("
  | .keyword .rightParen => .literal ")"
  | .keyword .yes => .literal "#t"
  | .keyword .no => .literal "#f"

end Terminal

namespace Pattern

/-- A class of the lexer given by ranges. -/
private theorem oneOf_language {holds : Char → Bool}
    (same : ∀ c, holds c = true ↔ ∃ range ∈ ranges, InRange range c) :
    (oneOf ranges).language = Terminal.oneOf holds := by
  simp only [language, Terminal.oneOf, same]
  rfl

private theorem noneOf_language {holds : Char → Bool} (same : ∀ c, holds c = true ↔ c ∉ chars) :
    (noneOf chars).language = Terminal.oneOf holds := by
  simp only [language, Terminal.oneOf, same]
  rfl

private theorem inRange_single {c d : Char} : InRange (d, d) c ↔ c = d := by
  constructor
  · rintro ⟨lower, upper⟩
    exact Char.toNat_inj.mp (Nat.le_antisymm upper lower)
  · rintro rfl
    exact ⟨Nat.le_refl _, Nat.le_refl _⟩

private theorem inRange_digit {c : Char} : InRange ('0', '9') c ↔ c.isDigit = true := by
  delta Char.isDigit
  simp only [Bool.and_eq_true, decide_eq_true_eq, ge_iff_le, UInt32.le_iff_toNat_le]
  exact Iff.rfl

private theorem inRange_alpha {c : Char} :
    InRange ('a', 'z') c ∨ InRange ('A', 'Z') c ↔ c.isAlpha = true := by
  delta Char.isAlpha Char.isUpper Char.isLower
  simp only [Bool.or_eq_true, Bool.and_eq_true, decide_eq_true_eq, ge_iff_le,
    UInt32.le_iff_toNat_le]
  exact or_comm

private theorem nameStart_iff {c : Char} :
    Token.isNameStart c = true ↔ ∃ range ∈ nameStart, InRange range c := by
  simp only [Token.isNameStart, Token.isNameMark, Bool.or_eq_true, ← inRange_alpha]
  simp [nameStart, singles, inRange_single, or_assoc]

private theorem nameRest_iff {c : Char} :
    Token.isNameRest c = true ↔ ∃ range ∈ nameRest, InRange range c := by
  simp only [Token.isNameRest, Bool.or_eq_true, nameStart_iff, ← inRange_digit]
  simp [nameRest, or_and_right, exists_or, inRange_single, or_assoc]

private theorem digit_language : digit.language = Terminal.oneOf Char.isDigit :=
  oneOf_language fun c => by simp [inRange_digit]

end Pattern

/-- The terminals have the languages of their regular expressions. -/
theorem Terminal.pattern_language (terminal : Terminal) :
    terminal.pattern.language = terminal.language := by
  cases terminal with
  | numeral =>
    simp only [pattern, Pattern.language, language, digits, Pattern.digit_language]
    rfl
  | keyword word => cases word <;> rfl
  | name =>
    simp only [pattern, Pattern.language, language]
    rw [← Pattern.oneOf_language fun c => Pattern.nameStart_iff,
      ← Pattern.oneOf_language fun c => Pattern.nameRest_iff]
    rfl
  | quoted =>
    simp only [pattern, Pattern.language, language, content]
    rw [← @Pattern.noneOf_language ['"', '\\'] (fun c => c != '"' && c != '\\') (by simp),
      ← @Pattern.noneOf_language ['\n'] (· != '\n') (by simp)]
    rfl

end TypedForms
