import TypedForms.Number.Reader
import TypedForms.Token.Basic
import TypedForms.Tree.Expr

/-! Forms that have been begun and not yet finished.

Reading keeps a stack of open forms.  Each one knows how much of it has been
read, which decides what may come next: a keyword that carries it on, a piece
that it has a place for, or the parenthesis that closes it.  The tables below
give one answer for each open form, and together they are the grammar.
-/
namespace TypedForms

/-- The kinds of finished pieces that a form has places for. -/
inductive PieceKind where
  | expr
  | ascription
  | var
  | binding
deriving DecidableEq

/-- A finished piece. -/
inductive Piece where
  | expr (value : Expr)
  | ascription (value : Ascription)
  | var (value : TypedVar)
  | binding (value : Binding)

/-- A form that has been begun, with the pieces read so far.  `start` is the offset of its opening
parenthesis. -/
inductive OpenForm where
  /-- A whole text that is a program. -/
  | program (done : List Expr)
  /-- A whole text that is one expression. -/
  | expression (done : Option Expr)
  /-- A whole text that is one ascription. -/
  | ascription (done : Option Ascription)
  /-- An ascription after its opening parenthesis. -/
  | typeOpened (start : Nat)
  /-- A procedure type after `*`. -/
  | procParam (start : Nat) (done : List Ascription)
  /-- A procedure type after a parameter. -/
  | procNext (start : Nat) (done : List Ascription)
  /-- A procedure type after `Empty`. -/
  | procNone (start : Nat)
  /-- A procedure type after its arrow. -/
  | procResult (start : Nat) (params : List Ascription)
  /-- A procedure type after its result. -/
  | procEnd (start : Nat) (params : List Ascription) (result : Ascription)
  /-- A union. -/
  | unionMembers (start : Nat) (done : List Ascription)
  /-- A typed variable after its opening parenthesis. -/
  | varOpened
  /-- A typed variable after its name. -/
  | varNamed (name : String)
  /-- A typed variable after its colon. -/
  | varType (name : String)
  /-- A typed variable after its type. -/
  | varEnd (name : String) (type : Ascription)
  /-- An expression after its opening parenthesis. -/
  | opened (start : Nat)
  /-- A conditional with up to three parts. -/
  | conditional (start : Nat) (done : List Expr)
  /-- A lambda after its keyword. -/
  | lambdaOpened (start : Nat)
  /-- A lambda inside its parameter list. -/
  | lambdaParams (start : Nat) (done : List TypedVar)
  /-- A lambda after its parameter list. -/
  | lambdaColon (start : Nat) (params : List TypedVar)
  /-- A lambda after its colon. -/
  | lambdaResult (start : Nat) (params : List TypedVar)
  /-- A lambda inside its body. -/
  | lambdaBody (start : Nat) (params : List TypedVar) (result : Ascription) (done : List Expr)
  /-- A `let` or `letrec` after its keyword. -/
  | letOpened (start : Nat) (recursive : Bool)
  /-- A `let` or `letrec` inside its binding list. -/
  | letBindings (start : Nat) (recursive : Bool) (done : List Binding)
  /-- A `let` or `letrec` inside its body. -/
  | letBody (start : Nat) (recursive : Bool) (bindings : List Binding) (done : List Expr)
  /-- A binding after its opening parenthesis. -/
  | bindingOpened
  /-- A binding after its variable. -/
  | bindingValue (var : TypedVar)
  /-- A binding after its value. -/
  | bindingEnd (var : TypedVar) (value : Expr)
  /-- A definition after its keyword. -/
  | defineOpened (start : Nat)
  /-- A definition after its variable. -/
  | defineValue (start : Nat) (var : TypedVar)
  /-- A definition after its value. -/
  | defineEnd (start : Nat) (var : TypedVar) (value : Expr)
  /-- An application after its operator. -/
  | operands (start : Nat) (operator : Expr) (done : List Expr)

namespace OpenForm

/-- The kind of piece that the form has a place for next. -/
def place : OpenForm → Option PieceKind
  | .program _ | .expression none | .opened _ | .lambdaBody .. | .letBody .. => some .expr
  | .bindingValue _ | .defineValue .. | .operands .. => some .expr
  | .conditional _ done => if done.length < 3 then some .expr else none
  | .ascription none | .typeOpened _ | .procParam .. | .procResult .. => some .ascription
  | .unionMembers .. | .varType _ | .lambdaResult .. => some .ascription
  | .lambdaParams .. | .bindingOpened | .defineOpened _ => some .var
  | .letBindings .. => some .binding
  | _ => none

/-- Puts a finished piece into its place. -/
def fill : OpenForm → Piece → Option OpenForm
  | .program done, .expr e => some (.program (done ++ [e]))
  | .expression none, .expr e => some (.expression (some e))
  | .ascription none, .ascription a => some (.ascription (some a))
  | .typeOpened start, .ascription a => some (.procNext start [a])
  | .procParam start done, .ascription a => some (.procNext start (done ++ [a]))
  | .procResult start params, .ascription a => some (.procEnd start params a)
  | .unionMembers start done, .ascription a => some (.unionMembers start (done ++ [a]))
  | .varType name, .ascription a => some (.varEnd name a)
  | .opened start, .expr e => some (.operands start e [])
  | .conditional start done, .expr e =>
    if done.length < 3 then some (.conditional start (done ++ [e])) else none
  | .lambdaParams start done, .var v => some (.lambdaParams start (done ++ [v]))
  | .lambdaResult start params, .ascription a => some (.lambdaBody start params a [])
  | .lambdaBody start params result done, .expr e =>
    some (.lambdaBody start params result (done ++ [e]))
  | .letBindings start recursive done, .binding b =>
    some (.letBindings start recursive (done ++ [b]))
  | .letBody start recursive bindings done, .expr e =>
    some (.letBody start recursive bindings (done ++ [e]))
  | .bindingOpened, .var v => some (.bindingValue v)
  | .bindingValue v, .expr e => some (.bindingEnd v e)
  | .defineOpened start, .var v => some (.defineValue start v)
  | .defineValue start v, .expr e => some (.defineEnd start v e)
  | .operands start operator done, .expr e => some (.operands start operator (done ++ [e]))
  | _, _ => none

/-- Carries the form on by a token that belongs to the form itself. -/
def carryOn : OpenForm → Token → Option OpenForm
  | .typeOpened start, .keyword .union => some (.unionMembers start [])
  | .typeOpened start, .keyword .empty => some (.procNone start)
  | .procNone start, .keyword .arrow => some (.procResult start [])
  | .procNext start done, .keyword .star => some (.procParam start done)
  | .procNext start done, .keyword .arrow => some (.procResult start done)
  | .varOpened, .name name => some (.varNamed name)
  | .varNamed name, .keyword .colon => some (.varType name)
  | .opened start, .keyword .ifWord => some (.conditional start [])
  | .opened start, .keyword .lambda => some (.lambdaOpened start)
  | .opened start, .keyword .letWord => some (.letOpened start false)
  | .opened start, .keyword .letrec => some (.letOpened start true)
  | .opened start, .keyword .define => some (.defineOpened start)
  | .lambdaOpened start, .keyword .leftParen => some (.lambdaParams start [])
  | .lambdaParams start done, .keyword .rightParen => some (.lambdaColon start done)
  | .lambdaColon start params, .keyword .colon => some (.lambdaResult start params)
  | .letOpened start recursive, .keyword .leftParen => some (.letBindings start recursive [])
  | .letBindings start recursive done, .keyword .rightParen =>
    some (.letBody start recursive done [])
  | _, _ => none

/-- The form that an opening parenthesis begins in a place for the kind of piece. -/
def begun (start : Nat) : PieceKind → OpenForm
  | .expr => .opened start
  | .ascription => .typeOpened start
  | .var => .varOpened
  | .binding => .bindingOpened

/-- Closes the form by a parenthesis that ends at `stop`.  Bodies hold an expression at least,
unions two members. -/
def close (stop : Nat) : OpenForm → Option Piece
  | .procEnd start params result => some (.ascription (.proc ⟨start, stop⟩ params result))
  | .unionMembers start done =>
    if 2 ≤ done.length then some (.ascription (.union ⟨start, stop⟩ done)) else none
  | .varEnd name type => some (.var ⟨name, type⟩)
  | .conditional start [test, thenBranch, elseBranch] =>
    some (.expr (.conditional ⟨start, stop⟩ test thenBranch elseBranch))
  | .lambdaBody start params result (e :: body) =>
    some (.expr (.lambda ⟨start, stop⟩ params result (e :: body)))
  | .letBody start false bindings (e :: body) =>
    some (.expr (.letForm ⟨start, stop⟩ bindings (e :: body)))
  | .letBody start true bindings (e :: body) =>
    some (.expr (.letrecForm ⟨start, stop⟩ bindings (e :: body)))
  | .bindingEnd var value => some (.binding (.mk var value))
  | .defineEnd start var value => some (.expr (.define ⟨start, stop⟩ var value))
  | .operands start operator done => some (.expr (.application ⟨start, stop⟩ operator done))
  | _ => none

end OpenForm

/-- The piece that one token is by itself in a place for the kind of piece. -/
def Piece.ofToken? (range : Range) : PieceKind → Token → Option Piece
  | .expr, .numeral text => some (.expr (.number range (Number.ofNumeral text.toList)))
  | .expr, .keyword .yes => some (.expr (.boolean range true))
  | .expr, .keyword .no => some (.expr (.boolean range false))
  | .expr, .keyword .star => some (.expr (.primitive range Keyword.star.text))
  | .expr, .quoted content => some (.expr (.string range content))
  | .expr, .name name => some (.expr (Expr.ofName range name))
  | .ascription, .keyword .number => some (.ascription (.number range))
  | .ascription, .keyword .boolean => some (.ascription (.boolean range))
  | .ascription, .keyword .string => some (.ascription (.string range))
  | .ascription, .keyword .void => some (.ascription (.void range))
  | .ascription, .name name => some (.ascription (.named range name))
  | _, _ => none

end TypedForms
