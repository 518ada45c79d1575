import TypedForms.Parser.Reading

/-! The grammar as a relation between tokens and what they stand for.

The relation knows nothing of open forms: it says which sequences of tokens are
an ascription, an expression, a typed variable or a binding, and which tree each
of them builds.  A node's range goes from its first token to its last.
-/
namespace TypedForms

/-- The place of a token. -/
def Lexeme.range (lexeme : Lexeme) : Range := ⟨lexeme.start, lexeme.stop⟩

/-- What a sequence of tokens can stand for as a whole. -/
inductive Phrase where
  /-- One finished piece. -/
  | piece (piece : Piece)
  /-- Any number of pieces one after the other. -/
  | pieces (pieces : List Piece)
  /-- The parameters of a procedure type up to its arrow. -/
  | params (types : List Ascription)
  /-- The parameters after the first, each behind a star. -/
  | starred (types : List Ascription)

/-- A whole ascription. -/
abbrev Phrase.ascription (type : Ascription) : Phrase := .piece (.ascription type)

/-- A whole expression. -/
abbrev Phrase.expr (expr : Expr) : Phrase := .piece (.expr expr)

/-- The tokens are derived as the phrase. -/
inductive Derives : List Lexeme → Phrase → Prop where
  | numberType (word : lexeme.token = .keyword .number) :
      Derives [lexeme] (.ascription (.number lexeme.range))
  | booleanType (word : lexeme.token = .keyword .boolean) :
      Derives [lexeme] (.ascription (.boolean lexeme.range))
  | stringType (word : lexeme.token = .keyword .string) :
      Derives [lexeme] (.ascription (.string lexeme.range))
  | voidType (word : lexeme.token = .keyword .void) :
      Derives [lexeme] (.ascription (.void lexeme.range))
  | namedType (word : lexeme.token = .name name) :
      Derives [lexeme] (.ascription (.named lexeme.range name))
  | procType (opened : opening.token = .keyword .leftParen) (params : Derives first (.params types))
      (arrow : pointing.token = .keyword .arrow) (result : Derives second (.ascription type))
      (closed : closing.token = .keyword .rightParen) :
      Derives (opening :: (first ++ pointing :: (second ++ [closing])))
        (.ascription (.proc ⟨opening.start, closing.stop⟩ types type))
  | unionType (opened : opening.token = .keyword .leftParen) (word : head.token = .keyword .union)
      (members : Derives within (.pieces (types.map .ascription))) (enough : 2 ≤ types.length)
      (closed : closing.token = .keyword .rightParen) :
      Derives (opening :: head :: (within ++ [closing]))
        (.ascription (.union ⟨opening.start, closing.stop⟩ types))
  | noParams (word : lexeme.token = .keyword .empty) : Derives [lexeme] (.params [])
  | someParams (param : Derives first (.ascription type)) (rest : Derives second (.starred types)) :
      Derives (first ++ second) (.params (type :: types))
  | noStarred : Derives [] (.starred [])
  | nextStarred (star : separating.token = .keyword .star)
      (param : Derives first (.ascription type)) (rest : Derives second (.starred types)) :
      Derives (separating :: (first ++ second)) (.starred (type :: types))
  | var (opened : opening.token = .keyword .leftParen) (word : head.token = .name name)
      (colon : separating.token = .keyword .colon) (type : Derives within (.ascription ascribed))
      (closed : closing.token = .keyword .rightParen) :
      Derives (opening :: head :: separating :: (within ++ [closing]))
        (.piece (.var ⟨name, ascribed⟩))
  | binding (opened : opening.token = .keyword .leftParen)
      (var : Derives first (.piece (.var bound))) (value : Derives second (.expr expr))
      (closed : closing.token = .keyword .rightParen) :
      Derives (opening :: (first ++ (second ++ [closing]))) (.piece (.binding (.mk bound expr)))
  | numeral (word : lexeme.token = .numeral text) :
      Derives [lexeme] (.expr (.number lexeme.range (Number.ofNumeral text.toList)))
  | yes (word : lexeme.token = .keyword .yes) :
      Derives [lexeme] (.expr (.boolean lexeme.range true))
  | no (word : lexeme.token = .keyword .no) :
      Derives [lexeme] (.expr (.boolean lexeme.range false))
  | quoted (word : lexeme.token = .quoted content) :
      Derives [lexeme] (.expr (.string lexeme.range content))
  | name (word : lexeme.token = .name name) :
      Derives [lexeme] (.expr (Expr.ofName lexeme.range name))
  | star (word : lexeme.token = .keyword .star) :
      Derives [lexeme] (.expr (.primitive lexeme.range "*"))
  | conditional (opened : opening.token = .keyword .leftParen)
      (word : head.token = .keyword .ifWord) (test : Derives first (.expr condition))
      (thenPart : Derives second (.expr thenBranch)) (elsePart : Derives third (.expr elseBranch))
      (closed : closing.token = .keyword .rightParen) :
      Derives (opening :: head :: (first ++ (second ++ (third ++ [closing]))))
        (.expr (.conditional ⟨opening.start, closing.stop⟩ condition thenBranch elseBranch))
  | lambda (opened : opening.token = .keyword .leftParen) (word : head.token = .keyword .lambda)
      (listOpened : listOpening.token = .keyword .leftParen)
      (params : Derives first (.pieces (vars.map .var)))
      (listClosed : listClosing.token = .keyword .rightParen)
      (colon : separating.token = .keyword .colon) (result : Derives second (.ascription type))
      (body : Derives third (.pieces (exprs.map .expr))) (nonempty : exprs ≠ [])
      (closed : closing.token = .keyword .rightParen) :
      Derives (opening :: head :: listOpening :: (first ++ listClosing :: separating ::
          (second ++ (third ++ [closing]))))
        (.expr (.lambda ⟨opening.start, closing.stop⟩ vars type exprs))
  | letForm (opened : opening.token = .keyword .leftParen) (word : head.token = .keyword .letWord)
      (listOpened : listOpening.token = .keyword .leftParen)
      (bindings : Derives first (.pieces (bound.map .binding)))
      (listClosed : listClosing.token = .keyword .rightParen)
      (body : Derives second (.pieces (exprs.map .expr))) (nonempty : exprs ≠ [])
      (closed : closing.token = .keyword .rightParen) :
      Derives (opening :: head :: listOpening :: (first ++ listClosing :: (second ++ [closing])))
        (.expr (.letForm ⟨opening.start, closing.stop⟩ bound exprs))
  | letrecForm (opened : opening.token = .keyword .leftParen) (word : head.token = .keyword .letrec)
      (listOpened : listOpening.token = .keyword .leftParen)
      (bindings : Derives first (.pieces (bound.map .binding)))
      (listClosed : listClosing.token = .keyword .rightParen)
      (body : Derives second (.pieces (exprs.map .expr))) (nonempty : exprs ≠ [])
      (closed : closing.token = .keyword .rightParen) :
      Derives (opening :: head :: listOpening :: (first ++ listClosing :: (second ++ [closing])))
        (.expr (.letrecForm ⟨opening.start, closing.stop⟩ bound exprs))
  | define (opened : opening.token = .keyword .leftParen) (word : head.token = .keyword .define)
      (var : Derives first (.piece (.var bound))) (value : Derives second (.expr expr))
      (closed : closing.token = .keyword .rightParen) :
      Derives (opening :: head :: (first ++ (second ++ [closing])))
        (.expr (.define ⟨opening.start, closing.stop⟩ bound expr))
  | application (opened : opening.token = .keyword .leftParen)
      (head : Derives first (.expr operator)) (rest : Derives second (.pieces (exprs.map .expr)))
      (closed : closing.token = .keyword .rightParen) :
      Derives (opening :: (first ++ (second ++ [closing])))
        (.expr (.application ⟨opening.start, closing.stop⟩ operator exprs))
  | nothing : Derives [] (.pieces [])
  | next (piece : Derives first (.piece finished)) (rest : Derives second (.pieces pieces)) :
      Derives (first ++ second) (.pieces (finished :: pieces))

end TypedForms
