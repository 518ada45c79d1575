import TypedForms.Proofs.Grammar
import TypedForms.Proofs.TreeNodes

/-! Places do not decide what is derived.  Tokens that stand elsewhere, but are
the same in the same order, are derived as the same phrase with other ranges.
-/
namespace TypedForms

/-- The piece without its places. -/
def Piece.unplaced : Piece → Piece
  | .expr value => .expr value.unplaced
  | .ascription value => .ascription value.unplaced
  | .var value => .var value.unplaced
  | .binding value => .binding value.unplaced

/-- The phrase without its places. -/
def Phrase.unplaced : Phrase → Phrase
  | .piece finished => .piece finished.unplaced
  | .pieces list => .pieces (list.map Piece.unplaced)
  | .params types => .params (types.map Ascription.unplaced)
  | .starred types => .starred (types.map Ascription.unplaced)

/-- The same tokens at any places. -/
def SameTokens (others lexemes : List Lexeme) : Prop :=
  others.map Lexeme.token = lexemes.map Lexeme.token

theorem same_tokens_cons (same : SameTokens others (lexeme :: lexemes)) :
    ∃ other rest, others = other :: rest ∧ other.token = lexeme.token ∧ SameTokens rest lexemes :=
  List.map_eq_cons_iff.mp same

theorem same_tokens_append (same : SameTokens others (first ++ second)) :
    ∃ left right, others = left ++ right ∧ SameTokens left first ∧ SameTokens right second := by
  rw [SameTokens, List.map_append] at same
  exact List.map_eq_append_iff.mp same

theorem same_tokens_nil (same : SameTokens others []) : others = [] :=
  List.map_eq_nil_iff.mp same

/-! ## Recovering a phrase from its form without places -/

private theorem unplaced_items {wrap : α → Piece} {bare : α → α}
    (shape : ∀ piece item, Piece.unplaced piece = (wrap item).unplaced →
      ∃ other, piece = wrap other ∧ bare other = bare item)
    {pieces : List Piece} {items : List α}
    (same : pieces.map Piece.unplaced = (items.map wrap).map Piece.unplaced) :
    ∃ others : List α, pieces = others.map wrap ∧ others.map bare = items.map bare := by
  induction items generalizing pieces with
  | nil => exact ⟨[], by simpa using same, rfl⟩
  | cons item items ih =>
    obtain ⟨piece, rest, rfl, first, later⟩ := List.map_eq_cons_iff.mp same
    obtain ⟨other, rfl, sameItem⟩ := shape piece item first
    obtain ⟨others, rfl, sameItems⟩ := ih later
    exact ⟨other :: others, rfl, by simp [sameItem, sameItems]⟩

theorem unplaced_expr (piece : Piece) (expr : Expr)
    (same : piece.unplaced = (Piece.expr expr).unplaced) :
    ∃ other, piece = .expr other ∧ other.unplaced = expr.unplaced := by
  cases piece <;> simp_all [Piece.unplaced]

private theorem unplaced_ascription (piece : Piece) (type : Ascription)
    (same : piece.unplaced = (Piece.ascription type).unplaced) :
    ∃ other, piece = .ascription other ∧ other.unplaced = type.unplaced := by
  cases piece <;> simp_all [Piece.unplaced]

private theorem unplaced_var (piece : Piece) (var : TypedVar)
    (same : piece.unplaced = (Piece.var var).unplaced) :
    ∃ other, piece = .var other ∧ other.unplaced = var.unplaced := by
  cases piece <;> simp_all [Piece.unplaced]

private theorem unplaced_binding (piece : Piece) (binding : Binding)
    (same : piece.unplaced = (Piece.binding binding).unplaced) :
    ∃ other, piece = .binding other ∧ other.unplaced = binding.unplaced := by
  cases piece <;> simp_all [Piece.unplaced]

/-- The tokens, at any places, are derived as the phrase up to its places. -/
def DerivesAnywhere (lexemes : List Lexeme) (phrase : Phrase) : Prop :=
  ∀ others, SameTokens others lexemes →
    ∃ other, Derives others other ∧ other.unplaced = phrase.unplaced

namespace DerivesAnywhere

variable {lexemes others : List Lexeme}

private theorem piece (anywhere : DerivesAnywhere lexemes (.piece finished))
    (same : SameTokens others lexemes) :
    ∃ other, Derives others (.piece other) ∧ other.unplaced = finished.unplaced := by
  obtain ⟨other, derived, bare⟩ := anywhere others same
  cases other <;> simp only [Phrase.unplaced, reduceCtorEq, Phrase.piece.injEq] at bare
  exact ⟨_, derived, bare⟩

theorem expr (anywhere : DerivesAnywhere lexemes (.expr e))
    (same : SameTokens others lexemes) :
    ∃ other, Derives others (.expr other) ∧ other.unplaced = e.unplaced := by
  obtain ⟨other, derived, barePiece⟩ := anywhere.piece same
  obtain ⟨other, rfl, bare⟩ := unplaced_expr other e barePiece
  exact ⟨other, derived, bare⟩

theorem ascription (anywhere : DerivesAnywhere lexemes (.ascription type))
    (same : SameTokens others lexemes) :
    ∃ other, Derives others (.ascription other) ∧ other.unplaced = type.unplaced := by
  obtain ⟨other, derived, barePiece⟩ := anywhere.piece same
  obtain ⟨other, rfl, bare⟩ := unplaced_ascription other type barePiece
  exact ⟨other, derived, bare⟩

private theorem var (anywhere : DerivesAnywhere lexemes (.piece (.var bound)))
    (same : SameTokens others lexemes) :
    ∃ other, Derives others (.piece (.var other)) ∧ other.unplaced = bound.unplaced := by
  obtain ⟨other, derived, barePiece⟩ := anywhere.piece same
  obtain ⟨other, rfl, bare⟩ := unplaced_var other bound barePiece
  exact ⟨other, derived, bare⟩

private theorem pieces (anywhere : DerivesAnywhere lexemes (.pieces list))
    (same : SameTokens others lexemes) : ∃ other, Derives others (.pieces other) ∧
      other.map Piece.unplaced = list.map Piece.unplaced := by
  obtain ⟨other, derived, bare⟩ := anywhere others same
  cases other <;> simp only [Phrase.unplaced, reduceCtorEq, Phrase.pieces.injEq] at bare
  exact ⟨_, derived, bare⟩

theorem items {wrap : α → Piece} {bare : α → α}
    (shape : ∀ piece item, Piece.unplaced piece = (wrap item).unplaced →
      ∃ other, piece = wrap other ∧ bare other = bare item)
    {list : List α} (anywhere : DerivesAnywhere lexemes (.pieces (list.map wrap)))
    (same : SameTokens others lexemes) :
    ∃ other : List α, Derives others (.pieces (other.map wrap)) ∧
      other.map bare = list.map bare := by
  obtain ⟨other, derived, barePieces⟩ := anywhere.pieces same
  obtain ⟨found, rfl, sameItems⟩ := unplaced_items shape barePieces
  exact ⟨found, derived, sameItems⟩

private theorem params (anywhere : DerivesAnywhere lexemes (.params types))
    (same : SameTokens others lexemes) : ∃ other, Derives others (.params other) ∧
      other.map Ascription.unplaced = types.map Ascription.unplaced := by
  obtain ⟨other, derived, bare⟩ := anywhere others same
  cases other <;> simp only [Phrase.unplaced, reduceCtorEq, Phrase.params.injEq] at bare
  exact ⟨_, derived, bare⟩

private theorem starred (anywhere : DerivesAnywhere lexemes (.starred types))
    (same : SameTokens others lexemes) : ∃ other, Derives others (.starred other) ∧
      other.map Ascription.unplaced = types.map Ascription.unplaced := by
  obtain ⟨other, derived, bare⟩ := anywhere others same
  cases other <;> simp only [Phrase.unplaced, reduceCtorEq, Phrase.starred.injEq] at bare
  exact ⟨_, derived, bare⟩

end DerivesAnywhere

private theorem single_anywhere (derives : ∀ other : Lexeme, other.token = lexeme.token →
    ∃ phrase', Derives [other] phrase' ∧ phrase'.unplaced = phrase.unplaced) :
    DerivesAnywhere [lexeme] phrase := by
  intro others same
  obtain ⟨other, rest, rfl, token, same⟩ := same_tokens_cons same
  obtain rfl := same_tokens_nil same
  exact derives other token

private theorem unplaced_ofName (range : Range) (name : String) :
    (Expr.ofName range name).unplaced = Expr.ofName .origin name := by
  unfold Expr.ofName
  split <;> rfl

/-- What is derived from tokens is derived from the same tokens at other places, up to places. -/
theorem derives_anywhere (derived : Derives lexemes phrase) : DerivesAnywhere lexemes phrase := by
  induction derived with
  | numberType word =>
    exact single_anywhere fun other token => ⟨_, .numberType (token.trans word), rfl⟩
  | booleanType word =>
    exact single_anywhere fun other token => ⟨_, .booleanType (token.trans word), rfl⟩
  | stringType word =>
    exact single_anywhere fun other token => ⟨_, .stringType (token.trans word), rfl⟩
  | voidType word =>
    exact single_anywhere fun other token => ⟨_, .voidType (token.trans word), rfl⟩
  | namedType word =>
    exact single_anywhere fun other token => ⟨_, .namedType (token.trans word), rfl⟩
  | noParams word =>
    exact single_anywhere fun other token => ⟨_, .noParams (token.trans word), rfl⟩
  | numeral word =>
    exact single_anywhere fun other token => ⟨_, .numeral (token.trans word), rfl⟩
  | yes word =>
    exact single_anywhere fun other token => ⟨_, .yes (token.trans word), rfl⟩
  | no word =>
    exact single_anywhere fun other token => ⟨_, .no (token.trans word), rfl⟩
  | quoted word =>
    exact single_anywhere fun other token => ⟨_, .quoted (token.trans word), rfl⟩
  | name word =>
    exact single_anywhere fun other token => ⟨_, .name (token.trans word),
      by simp [Phrase.unplaced, Piece.unplaced, unplaced_ofName]⟩
  | star word =>
    exact single_anywhere fun other token => ⟨_, .star (token.trans word), rfl⟩
  | procType opened _ arrow _ closed params result =>
    intro others same
    obtain ⟨opening, _, rfl, openingToken, same⟩ := same_tokens_cons same
    obtain ⟨first, _, rfl, sameFirst, same⟩ := same_tokens_append same
    obtain ⟨pointing, _, rfl, pointingToken, same⟩ := same_tokens_cons same
    obtain ⟨second, _, rfl, sameSecond, same⟩ := same_tokens_append same
    obtain ⟨closing, _, rfl, closingToken, same⟩ := same_tokens_cons same
    obtain rfl := same_tokens_nil same
    obtain ⟨types, paramsDerived, bareParams⟩ := params.params sameFirst
    obtain ⟨type, resultDerived, bareResult⟩ := result.ascription sameSecond
    exact ⟨_, .procType (openingToken.trans opened) paramsDerived (pointingToken.trans arrow)
      resultDerived (closingToken.trans closed),
      by simp [Phrase.unplaced, Piece.unplaced, Ascription.unplaced, bareParams, bareResult]⟩
  | unionType opened word _ enough closed members =>
    intro others same
    obtain ⟨opening, _, rfl, openingToken, same⟩ := same_tokens_cons same
    obtain ⟨head, _, rfl, headToken, same⟩ := same_tokens_cons same
    obtain ⟨inner, _, rfl, sameInner, same⟩ := same_tokens_append same
    obtain ⟨closing, _, rfl, closingToken, same⟩ := same_tokens_cons same
    obtain rfl := same_tokens_nil same
    obtain ⟨types, membersDerived, bareMembers⟩ := members.items unplaced_ascription sameInner
    have sameLength := congrArg List.length bareMembers
    simp only [List.length_map] at sameLength
    exact ⟨_, .unionType (openingToken.trans opened) (headToken.trans word) membersDerived
      (sameLength ▸ enough) (closingToken.trans closed),
      by simp [Phrase.unplaced, Piece.unplaced, Ascription.unplaced, bareMembers]⟩
  | someParams _ _ param rest =>
    intro others same
    obtain ⟨first, second, rfl, sameFirst, sameSecond⟩ := same_tokens_append same
    obtain ⟨type, paramDerived, bareParam⟩ := param.ascription sameFirst
    obtain ⟨types, restDerived, bareRest⟩ := rest.starred sameSecond
    exact ⟨_, .someParams paramDerived restDerived, by simp [Phrase.unplaced, bareParam, bareRest]⟩
  | noStarred =>
    intro others same
    obtain rfl := same_tokens_nil same
    exact ⟨_, .noStarred, rfl⟩
  | nextStarred star _ _ param rest =>
    intro others same
    obtain ⟨separating, _, rfl, separatingToken, same⟩ := same_tokens_cons same
    obtain ⟨first, second, rfl, sameFirst, sameSecond⟩ := same_tokens_append same
    obtain ⟨type, paramDerived, bareParam⟩ := param.ascription sameFirst
    obtain ⟨types, restDerived, bareRest⟩ := rest.starred sameSecond
    exact ⟨_, .nextStarred (separatingToken.trans star) paramDerived restDerived,
      by simp [Phrase.unplaced, bareParam, bareRest]⟩
  | var opened word colon _ closed type =>
    intro others same
    obtain ⟨opening, _, rfl, openingToken, same⟩ := same_tokens_cons same
    obtain ⟨head, _, rfl, headToken, same⟩ := same_tokens_cons same
    obtain ⟨separating, _, rfl, separatingToken, same⟩ := same_tokens_cons same
    obtain ⟨inner, _, rfl, sameInner, same⟩ := same_tokens_append same
    obtain ⟨closing, _, rfl, closingToken, same⟩ := same_tokens_cons same
    obtain rfl := same_tokens_nil same
    obtain ⟨ascribed, typeDerived, bareType⟩ := type.ascription sameInner
    exact ⟨_, .var (openingToken.trans opened) (headToken.trans word) (separatingToken.trans colon)
      typeDerived (closingToken.trans closed),
      by simp [Phrase.unplaced, Piece.unplaced, TypedVar.unplaced, bareType]⟩
  | binding opened _ _ closed var value =>
    intro others same
    obtain ⟨opening, _, rfl, openingToken, same⟩ := same_tokens_cons same
    obtain ⟨first, _, rfl, sameFirst, same⟩ := same_tokens_append same
    obtain ⟨second, _, rfl, sameSecond, same⟩ := same_tokens_append same
    obtain ⟨closing, _, rfl, closingToken, same⟩ := same_tokens_cons same
    obtain rfl := same_tokens_nil same
    obtain ⟨bound, varDerived, bareVar⟩ := var.var sameFirst
    obtain ⟨expr, valueDerived, bareValue⟩ := value.expr sameSecond
    exact ⟨_, .binding (openingToken.trans opened) varDerived valueDerived
      (closingToken.trans closed),
      by simp [Phrase.unplaced, Piece.unplaced, Binding.unplaced, Binding.var, Binding.value,
        bareVar, bareValue]⟩
  | conditional opened word _ _ _ closed test thenPart elsePart =>
    intro others same
    obtain ⟨opening, _, rfl, openingToken, same⟩ := same_tokens_cons same
    obtain ⟨head, _, rfl, headToken, same⟩ := same_tokens_cons same
    obtain ⟨first, _, rfl, sameFirst, same⟩ := same_tokens_append same
    obtain ⟨second, _, rfl, sameSecond, same⟩ := same_tokens_append same
    obtain ⟨third, _, rfl, sameThird, same⟩ := same_tokens_append same
    obtain ⟨closing, _, rfl, closingToken, same⟩ := same_tokens_cons same
    obtain rfl := same_tokens_nil same
    obtain ⟨condition, testDerived, bareTest⟩ := test.expr sameFirst
    obtain ⟨thenBranch, thenDerived, bareThen⟩ := thenPart.expr sameSecond
    obtain ⟨elseBranch, elseDerived, bareElse⟩ := elsePart.expr sameThird
    exact ⟨_, .conditional (openingToken.trans opened) (headToken.trans word) testDerived
      thenDerived elseDerived (closingToken.trans closed),
      by simp [Phrase.unplaced, Piece.unplaced, Expr.unplaced, bareTest, bareThen, bareElse]⟩
  | lambda opened word listOpened _ listClosed colon _ _ nonempty closed params result body =>
    intro others same
    obtain ⟨opening, _, rfl, openingToken, same⟩ := same_tokens_cons same
    obtain ⟨head, _, rfl, headToken, same⟩ := same_tokens_cons same
    obtain ⟨listOpening, _, rfl, listOpeningToken, same⟩ := same_tokens_cons same
    obtain ⟨first, _, rfl, sameFirst, same⟩ := same_tokens_append same
    obtain ⟨listClosing, _, rfl, listClosingToken, same⟩ := same_tokens_cons same
    obtain ⟨separating, _, rfl, separatingToken, same⟩ := same_tokens_cons same
    obtain ⟨second, _, rfl, sameSecond, same⟩ := same_tokens_append same
    obtain ⟨third, _, rfl, sameThird, same⟩ := same_tokens_append same
    obtain ⟨closing, _, rfl, closingToken, same⟩ := same_tokens_cons same
    obtain rfl := same_tokens_nil same
    obtain ⟨vars, paramsDerived, bareParams⟩ := params.items unplaced_var sameFirst
    obtain ⟨type, resultDerived, bareResult⟩ := result.ascription sameSecond
    obtain ⟨exprs, bodyDerived, bareBody⟩ := body.items unplaced_expr sameThird
    exact ⟨_, .lambda (openingToken.trans opened) (headToken.trans word)
      (listOpeningToken.trans listOpened) paramsDerived (listClosingToken.trans listClosed)
      (separatingToken.trans colon) resultDerived bodyDerived
      (Expr.ne_nil_of_unplaced bareBody nonempty) (closingToken.trans closed),
      by simp [Phrase.unplaced, Piece.unplaced, Expr.unplaced, bareParams, bareResult, bareBody]⟩
  | letForm opened word listOpened _ listClosed _ nonempty closed bindings body =>
    intro others same
    obtain ⟨opening, _, rfl, openingToken, same⟩ := same_tokens_cons same
    obtain ⟨head, _, rfl, headToken, same⟩ := same_tokens_cons same
    obtain ⟨listOpening, _, rfl, listOpeningToken, same⟩ := same_tokens_cons same
    obtain ⟨first, _, rfl, sameFirst, same⟩ := same_tokens_append same
    obtain ⟨listClosing, _, rfl, listClosingToken, same⟩ := same_tokens_cons same
    obtain ⟨second, _, rfl, sameSecond, same⟩ := same_tokens_append same
    obtain ⟨closing, _, rfl, closingToken, same⟩ := same_tokens_cons same
    obtain rfl := same_tokens_nil same
    obtain ⟨bound, bindingsDerived, bareBindings⟩ := bindings.items unplaced_binding sameFirst
    obtain ⟨exprs, bodyDerived, bareBody⟩ := body.items unplaced_expr sameSecond
    exact ⟨_, .letForm (openingToken.trans opened) (headToken.trans word)
      (listOpeningToken.trans listOpened) bindingsDerived (listClosingToken.trans listClosed)
      bodyDerived (Expr.ne_nil_of_unplaced bareBody nonempty) (closingToken.trans closed),
      by simp [Phrase.unplaced, Piece.unplaced, Expr.unplaced, bareBindings, bareBody]⟩
  | letrecForm opened word listOpened _ listClosed _ nonempty closed bindings body =>
    intro others same
    obtain ⟨opening, _, rfl, openingToken, same⟩ := same_tokens_cons same
    obtain ⟨head, _, rfl, headToken, same⟩ := same_tokens_cons same
    obtain ⟨listOpening, _, rfl, listOpeningToken, same⟩ := same_tokens_cons same
    obtain ⟨first, _, rfl, sameFirst, same⟩ := same_tokens_append same
    obtain ⟨listClosing, _, rfl, listClosingToken, same⟩ := same_tokens_cons same
    obtain ⟨second, _, rfl, sameSecond, same⟩ := same_tokens_append same
    obtain ⟨closing, _, rfl, closingToken, same⟩ := same_tokens_cons same
    obtain rfl := same_tokens_nil same
    obtain ⟨bound, bindingsDerived, bareBindings⟩ := bindings.items unplaced_binding sameFirst
    obtain ⟨exprs, bodyDerived, bareBody⟩ := body.items unplaced_expr sameSecond
    exact ⟨_, .letrecForm (openingToken.trans opened) (headToken.trans word)
      (listOpeningToken.trans listOpened) bindingsDerived (listClosingToken.trans listClosed)
      bodyDerived (Expr.ne_nil_of_unplaced bareBody nonempty) (closingToken.trans closed),
      by simp [Phrase.unplaced, Piece.unplaced, Expr.unplaced, bareBindings, bareBody]⟩
  | define opened word _ _ closed var value =>
    intro others same
    obtain ⟨opening, _, rfl, openingToken, same⟩ := same_tokens_cons same
    obtain ⟨head, _, rfl, headToken, same⟩ := same_tokens_cons same
    obtain ⟨first, _, rfl, sameFirst, same⟩ := same_tokens_append same
    obtain ⟨second, _, rfl, sameSecond, same⟩ := same_tokens_append same
    obtain ⟨closing, _, rfl, closingToken, same⟩ := same_tokens_cons same
    obtain rfl := same_tokens_nil same
    obtain ⟨bound, varDerived, bareVar⟩ := var.var sameFirst
    obtain ⟨expr, valueDerived, bareValue⟩ := value.expr sameSecond
    exact ⟨_, .define (openingToken.trans opened) (headToken.trans word) varDerived valueDerived
      (closingToken.trans closed),
      by simp [Phrase.unplaced, Piece.unplaced, Expr.unplaced, bareVar, bareValue]⟩
  | application opened _ _ closed head rest =>
    intro others same
    obtain ⟨opening, _, rfl, openingToken, same⟩ := same_tokens_cons same
    obtain ⟨first, _, rfl, sameFirst, same⟩ := same_tokens_append same
    obtain ⟨second, _, rfl, sameSecond, same⟩ := same_tokens_append same
    obtain ⟨closing, _, rfl, closingToken, same⟩ := same_tokens_cons same
    obtain rfl := same_tokens_nil same
    obtain ⟨operator, headDerived, bareHead⟩ := head.expr sameFirst
    obtain ⟨exprs, restDerived, bareRest⟩ := rest.items unplaced_expr sameSecond
    exact ⟨_, .application (openingToken.trans opened) headDerived restDerived
      (closingToken.trans closed),
      by simp [Phrase.unplaced, Piece.unplaced, Expr.unplaced, bareHead, bareRest]⟩
  | nothing =>
    intro others same
    obtain rfl := same_tokens_nil same
    exact ⟨_, .nothing, rfl⟩
  | next _ _ piece rest =>
    intro others same
    obtain ⟨first, second, rfl, sameFirst, sameSecond⟩ := same_tokens_append same
    obtain ⟨finished, pieceDerived, barePiece⟩ := piece.piece sameFirst
    obtain ⟨pieces, restDerived, bareRest⟩ := rest.pieces sameSecond
    exact ⟨_, .next pieceDerived restDerived, by simp [Phrase.unplaced, barePiece, bareRest]⟩

end TypedForms
