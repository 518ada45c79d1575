import TypedForms.Diagnostic
import TypedForms.Parser.OpenForm
import TypedForms.Token.Lexer

/-! Reading a text as a program, an expression or an ascription.

Tokens are taken one by one.  A token that no open form can take stops the
reading, so what is reported is always the first place at which the text can no
longer be completed.
-/
namespace TypedForms

/-- Why a text cannot be read. -/
inductive ParseError where
  /-- No token begins at the offset. -/
  | invalidToken (offset : Nat)
  /-- The token cannot follow what stands before it. -/
  | unexpected (lexeme : Lexeme)
  /-- The text ends too early; the offset is the end of its last token. -/
  | unfinished (offset : Nat)
deriving DecidableEq

namespace ParseError

/-- The text of a parse error. -/
def message : ParseError → String
  | .invalidToken _ => "invalid token"
  | .unexpected lexeme => "unrecognized token '" ++ lexeme.token.text ++ "'"
  | .unfinished _ => "unrecognized eof"

/-- The place of a parse error. -/
def range : ParseError → Range
  | .invalidToken offset => .single offset
  | .unexpected lexeme => ⟨lexeme.start, lexeme.stop⟩
  | .unfinished offset => .single offset

/-- A parse error as a diagnostic. -/
def diagnostic (error : ParseError) : Diagnostic := ⟨error.message, error.range⟩

end ParseError

namespace Parser

/-- A closing parenthesis finishes the innermost form and puts it into the form around it. -/
def closeInnermost (stop : Nat) : List OpenForm → Option (List OpenForm)
  | form :: outer :: rest => do
    let piece ← form.close stop
    let filled ← outer.fill piece
    return filled :: rest
  | _ => none

/-- Takes a token that is no part of the innermost form itself: a piece of its own, the beginning
of an inner form, or the end of this one. -/
def takePiece (form : OpenForm) (rest : List OpenForm) (lexeme : Lexeme) :
    Option (List OpenForm) :=
  match form.place.bind fun kind =>
      Piece.ofToken? ⟨lexeme.start, lexeme.stop⟩ kind lexeme.token with
  | some piece => (form.fill piece).map (· :: rest)
  | none =>
    match lexeme.token with
    | .keyword .leftParen =>
      form.place.map fun kind => OpenForm.begun lexeme.start kind :: form :: rest
    | .keyword .rightParen => closeInnermost lexeme.stop (form :: rest)
    | _ => none

/-- Takes the next token.  There is no result when the token cannot come next. -/
def take : List OpenForm → Lexeme → Option (List OpenForm)
  | [], _ => none
  | form :: rest, lexeme =>
    match form.carryOn lexeme.token with
    | some next => some (next :: rest)
    | none => takePiece form rest lexeme

/-- Takes tokens as long as they can come next; a token that cannot is the error. -/
def takeAll (forms : List OpenForm) : List Lexeme → Except Lexeme (List OpenForm)
  | [] => .ok forms
  | lexeme :: rest =>
    match take forms lexeme with
    | some next => takeAll next rest
    | none => .error lexeme

/-- Reads a whole text that begins as the given form; `finished?` gives the result of a form that
is complete. -/
def read (start : OpenForm) (finished? : List OpenForm → Option α) (source : String) :
    Except ParseError α :=
  let scan := Token.scan source
  match takeAll [start] scan.lexemes with
  | .error lexeme => .error (.unexpected lexeme)
  | .ok forms =>
    match scan.invalid with
    | some offset => .error (.invalidToken offset)
    | none =>
      match finished? forms with
      | some result => .ok result
      | none => .error (.unfinished scan.lastStop)

/-- The program of a finished reading; a program has at least one expression. -/
def finishedProgram? : List OpenForm → Option Program
  | [.program (e :: rest)] => some (e :: rest)
  | _ => none

/-- The expression of a finished reading. -/
def finishedExpr? : List OpenForm → Option Expr
  | [.expression (some e)] => some e
  | _ => none

/-- The ascription of a finished reading. -/
def finishedAscription? : List OpenForm → Option Ascription
  | [.ascription (some a)] => some a
  | _ => none

end Parser

/-- Reads a program, one or more expressions. -/
def Program.parse (source : String) : Except ParseError Program :=
  Parser.read (.program []) Parser.finishedProgram? source

/-- Reads a single expression. -/
def Expr.parse (source : String) : Except ParseError Expr :=
  Parser.read (.expression none) Parser.finishedExpr? source

/-- Reads a type ascription. -/
def Ascription.parse (source : String) : Except ParseError Ascription :=
  Parser.read (.ascription none) Parser.finishedAscription? source

end TypedForms
