import TypedForms.Text.Blank
import TypedForms.Token.Basic

/-! Splitting a text into tokens.

At each place that is not blank, every kind of token proposes the longest text
of its kind that the rest of the input begins with.  The longest proposal is
read; of proposals of one length, numerals go before keywords and keywords
before names and strings.
-/
namespace TypedForms.Token

/-- Marks that may stand anywhere in a name. -/
def isNameMark (c : Char) : Bool :=
  ['!', '$', '%', '&', '/', '<', '=', '>', '?', '^', '_', '~', '+', '-', '\''].contains c

/-- A name begins with a letter or a mark. -/
def isNameStart (c : Char) : Bool :=
  c.isAlpha || isNameMark c

/-- A name goes on with letters, marks, digits and points. -/
def isNameRest (c : Char) : Bool :=
  isNameStart c || c.isDigit || c == '.'

/-- The fraction of a numeral, a point and digits.  Without a digit the point is not taken. -/
def fractionOf : List Char → List Char
  | '.' :: rest =>
    let digits := rest.takeWhile Char.isDigit
    if digits.isEmpty then [] else '.' :: digits
  | _ => []

/-- The digits and the fraction of a numeral after its sign. -/
def unsignedNumeral? (input : List Char) : Option (List Char) :=
  let whole := input.takeWhile Char.isDigit
  if whole.isEmpty then none else some (whole ++ fractionOf (input.dropWhile Char.isDigit))

/-- The longest numeral at the beginning of the input. -/
def numeral? (input : List Char) : Option Token :=
  match input with
  | '-' :: rest => (unsignedNumeral? rest).map fun text => .numeral (String.ofList ('-' :: text))
  | _ => (unsignedNumeral? input).map fun text => .numeral (String.ofList text)

/-- The longest name-like text at the beginning of the input. -/
def name? (input : List Char) : Option Token :=
  match input with
  | c :: rest =>
    if isNameStart c then some (.name (String.ofList (c :: rest.takeWhile isNameRest))) else none
  | [] => none

/-- What stands before the closing quote.  A backslash takes the next character with it, which
must not be a newline; a newline on its own is ordinary content. -/
def quotedContent? : List Char → Option (List Char)
  | [] => none
  | '"' :: _ => some []
  | '\\' :: c :: rest =>
    if c = '\n' then none else (quotedContent? rest).map fun content => '\\' :: c :: content
  | c :: rest =>
    if c = '\\' then none else (quotedContent? rest).map fun content => c :: content

/-- The quoted string at the beginning of the input. -/
def quoted? (input : List Char) : Option Token :=
  match input with
  | '"' :: rest => (quotedContent? rest).map fun content => .quoted (String.ofList content)
  | _ => none

/-- The keywords that the input begins with. -/
def keywords (input : List Char) : List Token :=
  (Keyword.all.filter fun word => word.text.toList.isPrefixOf input).map .keyword

/-- All proposals for the token at the beginning of the input, in order of preference. -/
def proposals (input : List Char) : List Token :=
  (numeral? input).toList ++ keywords input ++ (name? input).toList ++ (quoted? input).toList

/-- The longest token of a list, the first one of that length. -/
def longest? : List Token → Option Token
  | [] => none
  | token :: rest =>
    match longest? rest with
    | none => some token
    | some other => if token.length < other.length then some other else some token

/-- The token at the beginning of the input. -/
def first? (input : List Char) : Option Token :=
  longest? (proposals input)

/-- The tokens of a text up to its end or up to the offset at which no token begins. -/
structure Scan where
  lexemes : List Lexeme
  invalid : Option Nat
deriving DecidableEq

namespace Scan

/-- Puts a token in front of what follows it. -/
def cons (lexeme : Lexeme) (later : Scan) : Scan :=
  { later with lexemes := lexeme :: later.lexemes }

/-- The end of the last token, zero when there is none. -/
def lastStop (scan : Scan) : Nat :=
  match scan.lexemes.getLast? with
  | some lexeme => lexeme.stop
  | none => 0

end Scan

/-- Scans the characters from a byte offset on; the first `taken` of them belong to the token read
last. -/
def scanFrom (offset taken : Nat) : List Char → Scan
  | [] => ⟨[], none⟩
  | c :: rest =>
    match taken with
    | taken + 1 => scanFrom (offset + c.utf8Size) taken rest
    | 0 =>
      if Text.isBlank c then
        scanFrom (offset + c.utf8Size) 0 rest
      else
        match first? (c :: rest) with
        | none => ⟨[], some offset⟩
        | some token =>
          .cons ⟨token, offset⟩ (scanFrom (offset + c.utf8Size) (token.length - 1) rest)

/-- The tokens of a text. -/
def scan (source : String) : Scan :=
  scanFrom 0 0 source.toList

end TypedForms.Token
