import TypedForms.Text.Lines

/-! Tokens: numerals, keywords, names and quoted strings, with the text that
each of them is written as.
-/
namespace TypedForms

/-- Words and marks with one fixed spelling.  They are reserved everywhere. -/
inductive Keyword where
  | ifWord
  | lambda
  | letWord
  | letrec
  | define
  | union
  | empty
  | number
  | boolean
  | string
  | void
  | arrow
  | star
  | colon
  | leftParen
  | rightParen
  | yes
  | no
deriving DecidableEq

namespace Keyword

/-- The spelling of a keyword. -/
def text : Keyword → String
  | .ifWord => "if"
  | .lambda => "lambda"
  | .letWord => "let"
  | .letrec => "letrec"
  | .define => "define"
  | .union => "union"
  | .empty => "Empty"
  | .number => "number"
  | .boolean => "boolean"
  | .string => "string"
  | .void => "void"
  | .arrow => "->"
  | .star => "*"
  | .colon => ":"
  | .leftParen => "("
  | .rightParen => ")"
  | .yes => "#t"
  | .no => "#f"

/-- Every keyword. -/
def all : List Keyword :=
  [.ifWord, .lambda, .letWord, .letrec, .define, .union, .empty, .number, .boolean, .string, .void,
    .arrow, .star, .colon, .leftParen, .rightParen, .yes, .no]

end Keyword

/-- A token.  A quoted string is held without its quotes, its escapes as they are written. -/
inductive Token where
  | numeral (text : String)
  | keyword (word : Keyword)
  | name (text : String)
  | quoted (content : String)
deriving DecidableEq

namespace Token

/-- The text that a token is written as. -/
def text : Token → String
  | .numeral text => text
  | .keyword word => word.text
  | .name text => text
  | .quoted content => "\"" ++ content ++ "\""

/-- The number of characters of a token. -/
def length (token : Token) : Nat := token.text.length

end Token

/-- A token and the byte offset at which it begins. -/
structure Lexeme where
  token : Token
  start : Nat
deriving DecidableEq

namespace Lexeme

/-- The offset right after the token. -/
def stop (lexeme : Lexeme) : Nat :=
  lexeme.start + Text.byteLength lexeme.token.text.toList

end Lexeme

end TypedForms
