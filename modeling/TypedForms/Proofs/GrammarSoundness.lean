import TypedForms.Proofs.GrammarReading

/-! What has been read is derived.  Every open form holds the tokens taken
since its opening parenthesis, and its fields are what the grammar derives from
them.  Each step of reading keeps this true of the whole stack, so that a form
that closes is a finished piece of the grammar.
-/
namespace TypedForms

/-- A sequence of pieces is one piece and then the rest. -/
theorem derives_cons_iff :
    Derives lexemes (.pieces (piece :: pieces)) ↔ ∃ first second, lexemes = first ++ second ∧
      Derives first (.piece piece) ∧ Derives second (.pieces pieces) := by
  constructor
  · intro derived
    cases derived with
    | next first rest => exact ⟨_, _, rfl, first, rest⟩
  · rintro ⟨first, second, rfl, piece, rest⟩
    exact .next piece rest

theorem derives_snoc (rest : Derives lexemes (.pieces pieces))
    (last : Derives more (.piece piece)) :
    Derives (lexemes ++ more) (.pieces (pieces ++ [piece])) := by
  induction pieces generalizing lexemes with
  | nil =>
    cases rest
    simpa using Derives.next last .nothing
  | cons head pieces ih =>
    obtain ⟨first, second, rfl, headDerived, restDerived⟩ := derives_cons_iff.mp rest
    rw [List.append_assoc]
    exact .next headDerived (ih restDerived)

private theorem no_exprs : Derives [] (.pieces (([] : List Expr).map .expr)) :=
  .nothing

private theorem collected_snoc (wrap : α → Piece) {done : List α} {item : α}
    (rest : Derives lexemes (.pieces (done.map wrap))) (last : Derives more (.piece (wrap item))) :
    Derives (lexemes ++ more) (.pieces ((done ++ [item]).map wrap)) := by
  rw [List.map_append]
  exact derives_snoc rest last

private theorem starred_snoc (rest : Derives lexemes (.starred types))
    (star : separating.token = .keyword .star) (last : Derives more (.ascription type)) :
    Derives (lexemes ++ separating :: more) (.starred (types ++ [type])) := by
  induction types generalizing lexemes with
  | nil =>
    cases rest
    simpa using Derives.nextStarred star last .noStarred
  | cons head types ih =>
    cases rest with
    | nextStarred star first rest =>
      rw [List.cons_append, List.append_assoc]
      exact .nextStarred star first (ih rest)

private theorem params_snoc (nonempty : types ≠ []) (rest : Derives lexemes (.params types))
    (star : separating.token = .keyword .star) (last : Derives more (.ascription type)) :
    Derives (lexemes ++ separating :: more) (.params (types ++ [type])) := by
  cases rest with
  | noParams => exact absurd rfl nonempty
  | someParams first rest =>
    rw [List.append_assoc]
    exact .someParams first (starred_snoc rest star last)

/-- The tokens that an open form has taken so far, and what they have been read as. -/
inductive Holds : OpenForm → List Lexeme → Prop where
  | program (exprs : Derives lexemes (.pieces (done.map .expr))) : Holds (.program done) lexemes
  | noExpression : Holds (.expression none) []
  | expression (expr : Derives lexemes (.expr e)) : Holds (.expression (some e)) lexemes
  | noAscription : Holds (.ascription none) []
  | ascription (type : Derives lexemes (.ascription a)) : Holds (.ascription (some a)) lexemes
  | typeOpened (opened : opening.token = .keyword .leftParen) :
      Holds (.typeOpened opening.start) [opening]
  | procParam (opened : opening.token = .keyword .leftParen) (nonempty : done ≠ [])
      (params : Derives first (.params done)) (star : separating.token = .keyword .star) :
      Holds (.procParam opening.start done) (opening :: (first ++ [separating]))
  | procNext (opened : opening.token = .keyword .leftParen) (nonempty : done ≠ [])
      (params : Derives first (.params done)) :
      Holds (.procNext opening.start done) (opening :: first)
  | procNone (opened : opening.token = .keyword .leftParen) (word : head.token = .keyword .empty) :
      Holds (.procNone opening.start) [opening, head]
  | procResult (opened : opening.token = .keyword .leftParen)
      (params : Derives first (.params types)) (arrow : pointing.token = .keyword .arrow) :
      Holds (.procResult opening.start types) (opening :: (first ++ [pointing]))
  | procEnd (opened : opening.token = .keyword .leftParen)
      (params : Derives first (.params types)) (arrow : pointing.token = .keyword .arrow)
      (result : Derives second (.ascription type)) :
      Holds (.procEnd opening.start types type) (opening :: (first ++ pointing :: second))
  | unionMembers (opened : opening.token = .keyword .leftParen)
      (word : head.token = .keyword .union)
      (members : Derives within (.pieces (done.map .ascription))) :
      Holds (.unionMembers opening.start done) (opening :: head :: within)
  | varOpened (opened : opening.token = .keyword .leftParen) : Holds .varOpened [opening]
  | varNamed (opened : opening.token = .keyword .leftParen) (word : head.token = .name name) :
      Holds (.varNamed name) [opening, head]
  | varType (opened : opening.token = .keyword .leftParen) (word : head.token = .name name)
      (colon : separating.token = .keyword .colon) :
      Holds (.varType name) [opening, head, separating]
  | varEnd (opened : opening.token = .keyword .leftParen) (word : head.token = .name name)
      (colon : separating.token = .keyword .colon) (type : Derives within (.ascription ascribed)) :
      Holds (.varEnd name ascribed) (opening :: head :: separating :: within)
  | opened (opened : opening.token = .keyword .leftParen) :
      Holds (.opened opening.start) [opening]
  | conditional (opened : opening.token = .keyword .leftParen)
      (word : head.token = .keyword .ifWord) (parts : Derives within (.pieces (done.map .expr))) :
      Holds (.conditional opening.start done) (opening :: head :: within)
  | lambdaOpened (opened : opening.token = .keyword .leftParen)
      (word : head.token = .keyword .lambda) :
      Holds (.lambdaOpened opening.start) [opening, head]
  | lambdaParams (opened : opening.token = .keyword .leftParen)
      (word : head.token = .keyword .lambda) (listOpened : listOpening.token = .keyword .leftParen)
      (params : Derives first (.pieces (done.map .var))) :
      Holds (.lambdaParams opening.start done) (opening :: head :: listOpening :: first)
  | lambdaColon (opened : opening.token = .keyword .leftParen)
      (word : head.token = .keyword .lambda) (listOpened : listOpening.token = .keyword .leftParen)
      (params : Derives first (.pieces (vars.map .var)))
      (listClosed : listClosing.token = .keyword .rightParen) :
      Holds (.lambdaColon opening.start vars)
        (opening :: head :: listOpening :: (first ++ [listClosing]))
  | lambdaResult (opened : opening.token = .keyword .leftParen)
      (word : head.token = .keyword .lambda) (listOpened : listOpening.token = .keyword .leftParen)
      (params : Derives first (.pieces (vars.map .var)))
      (listClosed : listClosing.token = .keyword .rightParen)
      (colon : separating.token = .keyword .colon) :
      Holds (.lambdaResult opening.start vars)
        (opening :: head :: listOpening :: (first ++ [listClosing, separating]))
  | lambdaBody (opened : opening.token = .keyword .leftParen)
      (word : head.token = .keyword .lambda) (listOpened : listOpening.token = .keyword .leftParen)
      (params : Derives first (.pieces (vars.map .var)))
      (listClosed : listClosing.token = .keyword .rightParen)
      (colon : separating.token = .keyword .colon) (result : Derives second (.ascription type))
      (body : Derives third (.pieces (done.map .expr))) :
      Holds (.lambdaBody opening.start vars type done)
        (opening :: head :: listOpening ::
          (first ++ listClosing :: separating :: (second ++ third)))
  | letOpened (opened : opening.token = .keyword .leftParen)
      (word : head.token = .keyword (if recursive then .letrec else .letWord)) :
      Holds (.letOpened opening.start recursive) [opening, head]
  | letBindings (opened : opening.token = .keyword .leftParen)
      (word : head.token = .keyword (if recursive then .letrec else .letWord))
      (listOpened : listOpening.token = .keyword .leftParen)
      (bindings : Derives first (.pieces (done.map .binding))) :
      Holds (.letBindings opening.start recursive done) (opening :: head :: listOpening :: first)
  | letBody (opened : opening.token = .keyword .leftParen)
      (word : head.token = .keyword (if recursive then .letrec else .letWord))
      (listOpened : listOpening.token = .keyword .leftParen)
      (bindings : Derives first (.pieces (bound.map .binding)))
      (listClosed : listClosing.token = .keyword .rightParen)
      (body : Derives second (.pieces (done.map .expr))) :
      Holds (.letBody opening.start recursive bound done)
        (opening :: head :: listOpening :: (first ++ listClosing :: second))
  | bindingOpened (opened : opening.token = .keyword .leftParen) : Holds .bindingOpened [opening]
  | bindingValue (opened : opening.token = .keyword .leftParen)
      (var : Derives first (.piece (.var bound))) :
      Holds (.bindingValue bound) (opening :: first)
  | bindingEnd (opened : opening.token = .keyword .leftParen)
      (var : Derives first (.piece (.var bound))) (value : Derives second (.expr expr)) :
      Holds (.bindingEnd bound expr) (opening :: (first ++ second))
  | defineOpened (opened : opening.token = .keyword .leftParen)
      (word : head.token = .keyword .define) :
      Holds (.defineOpened opening.start) [opening, head]
  | defineValue (opened : opening.token = .keyword .leftParen)
      (word : head.token = .keyword .define) (var : Derives first (.piece (.var bound))) :
      Holds (.defineValue opening.start bound) (opening :: head :: first)
  | defineEnd (opened : opening.token = .keyword .leftParen)
      (word : head.token = .keyword .define) (var : Derives first (.piece (.var bound)))
      (value : Derives second (.expr expr)) :
      Holds (.defineEnd opening.start bound expr) (opening :: head :: (first ++ second))
  | operands (opened : opening.token = .keyword .leftParen)
      (head : Derives first (.expr operator)) (rest : Derives second (.pieces (done.map .expr))) :
      Holds (.operands opening.start operator done) (opening :: (first ++ second))

namespace Holds

variable {form next : OpenForm} {lexeme : Lexeme} {lexemes more : List Lexeme} {piece : Piece}

/-- A token that carries a form on becomes part of it. -/
theorem carried (held : Holds form lexemes) (carries : form.carryOn lexeme.token = some next) :
    Holds next (lexemes ++ [lexeme]) := by
  unfold OpenForm.carryOn at carries
  split at carries
  · rename_i word
    cases carries
    cases held with
    | typeOpened opened => exact .unionMembers opened word .nothing
  · rename_i word
    cases carries
    cases held with
    | typeOpened opened => exact .procNone opened word
  · rename_i word
    cases carries
    cases held with
    | procNone opened empty => exact .procResult opened (.noParams empty) word
  · rename_i word
    cases carries
    cases held with
    | procNext opened nonempty params => exact .procParam opened nonempty params word
  · rename_i word
    cases carries
    cases held with
    | procNext opened nonempty params => exact .procResult opened params word
  · rename_i word
    cases carries
    cases held with
    | varOpened opened => exact .varNamed opened word
  · rename_i word
    cases carries
    cases held with
    | varNamed opened name => exact .varType opened name word
  · rename_i word
    cases carries
    cases held with
    | opened opened => exact .conditional opened word .nothing
  · rename_i word
    cases carries
    cases held with
    | opened opened => exact .lambdaOpened opened word
  · rename_i word
    cases carries
    cases held with
    | opened opened => exact .letOpened opened word
  · rename_i word
    cases carries
    cases held with
    | opened opened => exact .letOpened opened word
  · rename_i word
    cases carries
    cases held with
    | opened opened => exact .defineOpened opened word
  · rename_i word
    cases carries
    cases held with
    | lambdaOpened opened lambda => exact .lambdaParams opened lambda word .nothing
  · rename_i word
    cases carries
    cases held with
    | lambdaParams opened lambda listOpened params =>
      exact .lambdaColon opened lambda listOpened params word
  · rename_i word
    cases carries
    cases held with
    | lambdaColon opened lambda listOpened params listClosed =>
      simpa using Holds.lambdaResult opened lambda listOpened params listClosed word
  · rename_i word
    cases carries
    cases held with
    | letOpened opened keyword => exact .letBindings opened keyword word .nothing
  · rename_i word
    cases carries
    cases held with
    | letBindings opened keyword listOpened bindings =>
      exact .letBody opened keyword listOpened bindings word .nothing
  · cases carries

/-- A piece that fills a place of a form becomes part of it. -/
theorem filled (held : Holds form lexemes) (derived : Derives more (.piece piece))
    (fills : form.fill piece = some next) : Holds next (lexemes ++ more) := by
  unfold OpenForm.fill at fills
  split at fills
  · cases fills
    cases held with
    | program exprs =>
      exact .program (collected_snoc .expr exprs derived)
  · cases fills
    cases held with
    | noExpression =>
      exact .expression derived
  · cases fills
    cases held with
    | noAscription =>
      exact .ascription derived
  · cases fills
    cases held with
    | typeOpened opened =>
      simpa using Holds.procNext opened (by simp) (.someParams derived .noStarred)
  · cases fills
    cases held with
    | procParam opened nonempty params star =>
      simpa using Holds.procNext opened (by simp) (params_snoc nonempty params star derived)
  · cases fills
    cases held with
    | procResult opened params arrow =>
      simpa using Holds.procEnd opened params arrow derived
  · cases fills
    cases held with
    | unionMembers opened word members =>
      exact .unionMembers opened word (collected_snoc .ascription members derived)
  · cases fills
    cases held with
    | varType opened word colon =>
      exact .varEnd opened word colon derived
  · cases fills
    cases held with
    | opened opened =>
      simpa using Holds.operands opened derived no_exprs
  · split at fills
    · cases fills
      cases held with
      | conditional opened word parts =>
        exact .conditional opened word (collected_snoc .expr parts derived)
    · cases fills
  · cases fills
    cases held with
    | lambdaParams opened word listOpened params =>
      exact .lambdaParams opened word listOpened (collected_snoc .var params derived)
  · cases fills
    cases held with
    | lambdaResult opened word listOpened params listClosed colon =>
      simpa using Holds.lambdaBody opened word listOpened params listClosed colon derived no_exprs
  · cases fills
    cases held with
    | lambdaBody opened word listOpened params listClosed colon result body =>
      simpa using Holds.lambdaBody opened word listOpened params listClosed colon result
        (collected_snoc .expr body derived)
  · cases fills
    cases held with
    | letBindings opened word listOpened bindings =>
      exact .letBindings opened word listOpened (collected_snoc .binding bindings derived)
  · cases fills
    cases held with
    | letBody opened word listOpened bindings listClosed body =>
      simpa using Holds.letBody opened word listOpened bindings listClosed
        (collected_snoc .expr body derived)
  · cases fills
    cases held with
    | bindingOpened opened =>
      exact .bindingValue opened derived
  · cases fills
    cases held with
    | bindingValue opened var =>
      exact .bindingEnd opened var derived
  · cases fills
    cases held with
    | defineOpened opened word =>
      exact .defineValue opened word derived
  · cases fills
    cases held with
    | defineValue opened word var =>
      exact .defineEnd opened word var derived
  · cases fills
    cases held with
    | operands opened head rest =>
      simpa using Holds.operands opened head (collected_snoc .expr rest derived)
  · cases fills

/-- A form that is closed is a finished piece. -/
theorem closed (held : Holds form lexemes) (closing : lexeme.token = .keyword .rightParen)
    (closes : form.close lexeme.stop = some piece) :
    Derives (lexemes ++ [lexeme]) (.piece piece) := by
  unfold OpenForm.close at closes
  split at closes
  · cases closes
    cases held with
    | procEnd opened params arrow result =>
      simpa using Derives.procType opened params arrow result closing
  · split at closes
    · rename_i enough
      cases closes
      cases held with
      | unionMembers opened word members =>
        simpa using Derives.unionType opened word members enough closing
    · cases closes
  · cases closes
    cases held with
    | varEnd opened word colon type => simpa using Derives.var opened word colon type closing
  · cases closes
    cases held with
    | conditional opened word parts =>
      obtain ⟨first, _, rfl, test, parts⟩ := derives_cons_iff.mp parts
      obtain ⟨second, _, rfl, thenPart, parts⟩ := derives_cons_iff.mp parts
      obtain ⟨third, _, rfl, elsePart, parts⟩ := derives_cons_iff.mp parts
      cases parts
      simpa using Derives.conditional opened word test thenPart elsePart closing
  · cases closes
    cases held with
    | lambdaBody opened word listOpened params listClosed colon result body =>
      simpa using Derives.lambda opened word listOpened params listClosed colon result body
        (by simp) closing
  · cases closes
    cases held with
    | letBody opened word listOpened bindings listClosed body =>
      simpa using Derives.letForm opened word listOpened bindings listClosed body (by simp) closing
  · cases closes
    cases held with
    | letBody opened word listOpened bindings listClosed body =>
      simpa using
        Derives.letrecForm opened word listOpened bindings listClosed body (by simp) closing
  · cases closes
    cases held with
    | bindingEnd opened var value => simpa using Derives.binding opened var value closing
  · cases closes
    cases held with
    | defineEnd opened word var value => simpa using Derives.define opened word var value closing
  · cases closes
    cases held with
    | operands opened head rest => simpa using Derives.application opened head rest closing
  · cases closes

/-- An opening parenthesis begins a form that holds it. -/
theorem begun (opened : lexeme.token = .keyword .leftParen) (kind : PieceKind) :
    Holds (.begun lexeme.start kind) [lexeme] := by
  cases kind with
  | expr => exact .opened opened
  | ascription => exact .typeOpened opened
  | var => exact .varOpened opened
  | binding => exact .bindingOpened opened

end Holds

/-- A token that is a piece by itself is derived as that piece. -/
private theorem atom_derives {lexeme : Lexeme}
    (atom : Piece.ofToken? lexeme.range kind lexeme.token = some piece) :
    Derives [lexeme] (.piece piece) := by
  unfold Piece.ofToken? at atom
  split at atom
  · cases atom; exact .numeral (by assumption)
  · cases atom; exact .yes (by assumption)
  · cases atom; exact .no (by assumption)
  · cases atom; exact .star (by assumption)
  · cases atom; exact .quoted (by assumption)
  · cases atom; exact .name (by assumption)
  · cases atom; exact .numberType (by assumption)
  · cases atom; exact .booleanType (by assumption)
  · cases atom; exact .stringType (by assumption)
  · cases atom; exact .voidType (by assumption)
  · cases atom; exact .namedType (by assumption)
  · cases atom

namespace Parser

/-- The forms of a stack, the innermost first, hold together all tokens that were taken. -/
inductive Stands : List OpenForm → List Lexeme → Prop where
  | nothing : Stands [] []
  | form (outer : Stands stack lexemes) (held : Holds form more) :
      Stands (form :: stack) (lexemes ++ more)

theorem take_stands (stands : Stands stack lexemes) (taken : take stack lexeme = some next) :
    Stands next (lexemes ++ [lexeme]) := by
  cases stands with
  | nothing => cases taken
  | form outer held =>
    rw [List.append_assoc]
    obtain ⟨_, carries, rfl⟩ | ⟨_, _, _, atom, fills, rfl⟩ | ⟨kind, opened, _, rfl⟩ |
      ⟨_, _, _, _, closing, rfl, closes, fills, rfl⟩ := take_cases taken
    · exact .form outer (held.carried carries)
    · exact .form outer (held.filled (atom_derives atom) fills)
    · rw [← List.append_assoc]
      exact .form (.form outer held) (.begun opened kind)
    · cases outer with
      | form below outerHeld =>
        rw [List.append_assoc]
        exact .form below (outerHeld.filled (held.closed closing closes) fills)

theorem takeAll_stands (stands : Stands stack lexemes) (taken : takeAll stack more = .ok reached) :
    Stands reached (lexemes ++ more) :=
  takeAll_preserves (fun lexemes stack => Stands stack lexemes) take_stands stands taken

/-- Reading from one form gives a result exactly when the whole text splits into tokens and taking
all of them leaves a finished stack. -/
theorem read_ok_iff {start : OpenForm} {finished? : List OpenForm → Option α} {result : α} :
    read start finished? source = .ok result ↔ (Token.scan source).invalid = none ∧
      ∃ reached, takeAll [start] (Token.scan source).lexemes = .ok reached ∧
        finished? reached = some result := by
  unfold read
  cases taken : takeAll [start] (Token.scan source).lexemes with
  | error lexeme => simp [taken]
  | ok reached =>
    cases invalid : (Token.scan source).invalid with
    | some offset => simp [taken, invalid]
    | none =>
      cases finished : finished? reached with
      | none => simp [taken, invalid, finished]
      | some value => simp [taken, invalid, finished]

/-- What the start form holds in the end was derived from all tokens of the text. -/
private theorem start_holds (held : Holds start [])
    (taken : takeAll [start] lexemes = .ok [reached]) : Holds reached lexemes := by
  have stands := takeAll_stands (.form .nothing held) taken
  cases stands with
  | form outer held =>
    cases outer
    exact held

/-- Taking tokens as an ascription finishes exactly when they are derived as one. -/
theorem ascription_taken_iff : (∃ reached, takeAll [.ascription none] lexemes = .ok reached ∧
    finishedAscription? reached = some type) ↔ Derives lexemes (.ascription type) := by
  constructor
  · rintro ⟨reached, taken, finished⟩
    unfold finishedAscription? at finished
    split at finished
    · cases finished
      cases start_holds .noAscription taken with
      | ascription derived => exact derived
    · cases finished
  · intro derived
    have leads := derives_advances derived (.ascription none) _ [] rfl []
    rw [List.append_nil] at leads
    exact ⟨_, leads, rfl⟩

/-- Taking tokens as one expression finishes exactly when they are derived as one. -/
theorem expr_taken_iff : (∃ reached, takeAll [.expression none] lexemes = .ok reached ∧
    finishedExpr? reached = some expr) ↔ Derives lexemes (.expr expr) := by
  constructor
  · rintro ⟨reached, taken, finished⟩
    unfold finishedExpr? at finished
    split at finished
    · cases finished
      cases start_holds .noExpression taken with
      | expression derived => exact derived
    · cases finished
  · intro derived
    have leads := derives_advances derived (.expression none) _ [] rfl []
    rw [List.append_nil] at leads
    exact ⟨_, leads, rfl⟩

/-- Taking tokens as a program finishes exactly when they are derived as one or more
expressions. -/
theorem program_taken_iff : (∃ reached, takeAll [.program []] lexemes = .ok reached ∧
    finishedProgram? reached = some program) ↔
      program ≠ [] ∧ Derives lexemes (.pieces (program.map .expr)) := by
  constructor
  · rintro ⟨reached, taken, finished⟩
    unfold finishedProgram? at finished
    split at finished
    · cases finished
      cases start_holds (.program no_exprs) taken with
      | program derived => exact ⟨by simp, derived⟩
    · cases finished
  · rintro ⟨nonempty, derived⟩
    have leads := derives_advances derived (.program []) _ []
      (fillAll_collects .program .expr (fun _ _ => rfl) [] program) []
    rw [List.append_nil] at leads
    obtain ⟨first, rest, rfl⟩ := List.exists_cons_of_ne_nil nonempty
    exact ⟨_, leads, rfl⟩

end Parser

open TypedForms.Parser

/-- A text is an ascription exactly when its tokens are derived as one. -/
theorem ascription_parse_iff : Ascription.parse source = .ok type ↔
    (Token.scan source).invalid = none ∧
      Derives (Token.scan source).lexemes (.ascription type) := by
  rw [Ascription.parse, read_ok_iff, ascription_taken_iff]

/-- A text is one expression exactly when its tokens are derived as one. -/
theorem expr_parse_iff : Expr.parse source = .ok expr ↔
    (Token.scan source).invalid = none ∧ Derives (Token.scan source).lexemes (.expr expr) := by
  rw [Expr.parse, read_ok_iff, expr_taken_iff]

/-- A text is a program exactly when its tokens are derived as one or more expressions. -/
theorem program_parse_iff : Program.parse source = .ok program ↔
    (Token.scan source).invalid = none ∧ program ≠ [] ∧
      Derives (Token.scan source).lexemes (.pieces (program.map .expr)) := by
  rw [Program.parse, read_ok_iff, program_taken_iff]

end TypedForms
