import TypedForms.Proofs.GrammarPlaces
import TypedForms.Proofs.NumberReading
import TypedForms.Proofs.WellFormedTrees

/-! The text of a well formed tree is read back as the tree.

Each text is spelled by tokens that are derived as the tree, up to places.  The
tokens of a form are those of its parts between the words and parentheses that
the printer puts around them, so each kind of tree has one induction and no
lemma looks at characters again.
-/
namespace TypedForms
open Token

/-- The text is written with tokens that are derived as the item, up to places. -/
def SpelledAs (wrap : α → Phrase) (bare : α → β) (item : α) (chars : List Char) : Prop :=
  ∃ lexemes other, Derives lexemes (wrap other) ∧ bare other = bare item ∧
    Spells chars (lexemes.map Lexeme.token)

/-- A keyword at no place in particular. -/
private def mark (word : Keyword) : Lexeme := ⟨.keyword word, 0⟩

/-! ## Lists -/

theorem toList_intercalate_cons (separator first : String) (rest : List String) :
    (separator.intercalate (first :: rest)).toList =
      first.toList ++ rest.flatMap fun text => separator.toList ++ text.toList := by
  induction rest generalizing first with
  | nil => simp
  | cons second rest ih => simp [String.intercalate_cons_cons, ih]

private theorem delimited_flatMap {more : α → List Char} (blank : Text.isBlank c = true)
    (items : List α) : Delimited (items.flatMap fun item => c :: more item) := by
  cases items with
  | nil => simp [Delimited]
  | cons item items => simpa [Delimited] using delimiter_of_blank blank

section Joined

variable {wrap : α → Piece} {bare : α → β} {shown : α → String}

private theorem spelled_later (blank : Text.isBlank c = true) {items : List α}
    (each : ∀ item ∈ items, SpelledAs (fun other => .piece (wrap other)) bare item
      (shown item).toList) :
    SpelledAs (fun others => .pieces (others.map wrap)) (List.map bare) items
      (items.flatMap fun item => c :: (shown item).toList) := by
  induction items with
  | nil => exact ⟨[], [], .nothing, rfl, spells_nothing⟩
  | cons item items ih =>
    obtain ⟨firstEach, laterEach⟩ := List.forall_mem_cons.mp each
    obtain ⟨first, other, derived, same, spelled⟩ := firstEach
    obtain ⟨second, others, laterDerived, sameLater, laterSpelled⟩ := ih laterEach
    refine ⟨first ++ second, other :: others, .next derived laterDerived, by simp [same, sameLater],
      ?_⟩
    rw [List.flatMap_cons, List.map_append]
    exact spells_blank blank (spells_append spelled laterSpelled (delimited_flatMap blank items))

/-- Items with a blank between each two of them. -/
theorem spelled_joined {separator : String} (single : separator.toList = [c])
    (blank : Text.isBlank c = true) {items : List α}
    (each : ∀ item ∈ items, SpelledAs (fun other => .piece (wrap other)) bare item
      (shown item).toList) :
    SpelledAs (fun others => .pieces (others.map wrap)) (List.map bare) items
      (separator.intercalate (items.map shown)).toList := by
  cases items with
  | nil => exact ⟨[], [], .nothing, rfl, spells_nothing⟩
  | cons item items =>
    obtain ⟨firstEach, laterEach⟩ := List.forall_mem_cons.mp each
    obtain ⟨first, other, derived, same, spelled⟩ := firstEach
    obtain ⟨second, others, laterDerived, sameLater, laterSpelled⟩ := spelled_later blank laterEach
    refine ⟨first ++ second, other :: others, .next derived laterDerived, by simp [same, sameLater],
      ?_⟩
    rw [List.map_cons, toList_intercalate_cons, single, List.flatMap_map, List.map_append]
    exact spells_append spelled laterSpelled (delimited_flatMap blank items)

end Joined

/-! ## Ascriptions -/

namespace Ascription

private theorem spelled_starred {types : List Ascription}
    (each : ∀ type ∈ types, SpelledAs Phrase.ascription unplaced type type.text.toList) :
    SpelledAs .starred (List.map unplaced) types
      (types.flatMap fun type => " * ".toList ++ type.text.toList) := by
  induction types with
  | nil => exact ⟨[], [], .noStarred, rfl, spells_nothing⟩
  | cons type types ih =>
    obtain ⟨firstEach, laterEach⟩ := List.forall_mem_cons.mp each
    obtain ⟨first, other, derived, same, spelled⟩ := firstEach
    obtain ⟨second, others, laterDerived, sameLater, laterSpelled⟩ := ih laterEach
    refine ⟨mark .star :: (first ++ second), other :: others,
      .nextStarred rfl derived laterDerived, by simp [same, sameLater], ?_⟩
    have starred := spells_blank (by decide : Text.isBlank ' ' = true)
      (spells_spaced (spells_word .star)
        (spells_append spelled laterSpelled (delimited_flatMap (by decide) types)))
    simpa [mark, Keyword.text] using starred

theorem spelled_word (word : Keyword) (derives : Derives [mark word] (.ascription other))
    (same : other.unplaced = type.unplaced) (text : word.text = type.text) :
    SpelledAs Phrase.ascription unplaced type type.text.toList := by
  refine ⟨[mark word], other, derives, same, ?_⟩
  rw [← text]
  exact spells_word word

/-- A well formed ascription is spelled by its text. -/
theorem spelled {type : Ascription} (wellFormed : type.WellFormed) :
    SpelledAs Phrase.ascription unplaced type type.text.toList := by
  induction type with
  | number range => exact spelled_word .number (.numberType rfl) rfl rfl
  | boolean range => exact spelled_word .boolean (.booleanType rfl) rfl rfl
  | string range => exact spelled_word .string (.stringType rfl) rfl rfl
  | void range => exact spelled_word .void (.voidType rfl) rfl rfl
  | named range name =>
    have alone := legal_name_iff.mp ((all_leaf rfl).mp wellFormed)
    exact ⟨[⟨.name name, 0⟩], _, .namedType rfl, rfl, spells_token alone⟩
  | proc range params result paramsSpelled resultSpelled =>
    obtain ⟨_, paramsFormed, resultFormed⟩ := all_proc.mp wellFormed
    have paramTexts := fun param member => paramsSpelled param member (paramsFormed param member)
    obtain ⟨second, type, derived, sameType, resultText⟩ := resultSpelled resultFormed
    cases params with
    | nil =>
      refine ⟨mark .leftParen :: ([mark .empty] ++ mark .arrow :: (second ++ [mark .rightParen])),
        _, .procType rfl (.noParams rfl) rfl derived rfl, by simp [unplaced, sameType], ?_⟩
      have whole := spells_parens (spells_spaced (spells_word .empty)
        (spells_spaced (spells_word .arrow) resultText))
      simpa [text, mark, Keyword.text] using whole
    | cons param params =>
      obtain ⟨firstText, laterTexts⟩ := List.forall_mem_cons.mp paramTexts
      obtain ⟨head, other, headDerived, same, headText⟩ := firstText
      obtain ⟨later, others, laterDerived, sameLater, laterText⟩ := spelled_starred laterTexts
      refine ⟨mark .leftParen :: ((head ++ later) ++ mark .arrow :: (second ++ [mark .rightParen])),
        _, .procType rfl (.someParams headDerived laterDerived) rfl derived rfl,
        by simp [unplaced, sameType, same, sameLater], ?_⟩
      have whole := spells_parens (spells_spaced
        (spells_append headText laterText (delimited_flatMap (by decide) params))
        (spells_spaced (spells_word .arrow) resultText))
      simpa [text, mark, Keyword.text, texts_eq_map, toList_intercalate_cons, List.flatMap_map,
        -String.toList_intercalate] using whole
  | union range members membersSpelled =>
    obtain ⟨(enough : 2 ≤ members.length), membersFormed⟩ := all_union.mp wellFormed
    obtain ⟨inner, others, derived, same, membersText⟩ :=
      spelled_joined (by rfl : " ".toList = [' ']) (by decide)
        fun member listed => membersSpelled member listed (membersFormed member listed)
    have size : others.length = members.length := by simpa using congrArg List.length same
    refine ⟨mark .leftParen :: mark .union :: (inner ++ [mark .rightParen]), _,
      .unionType rfl rfl derived (by omega) rfl, by simp [unplaced, same], ?_⟩
    have whole := spells_parens (spells_spaced (spells_word .union) membersText)
    simpa [text, mark, Keyword.text, texts_eq_map] using whole

end Ascription

/-! ## Variables and bindings -/

theorem TypedVar.spelled {var : TypedVar} (wellFormed : var.WellFormed) :
    SpelledAs (fun other => .piece (.var other)) TypedVar.unplaced var var.text.toList := by
  obtain ⟨legal, typeFormed⟩ := wellFormed
  obtain ⟨inner, other, derived, same, typeText⟩ := Ascription.spelled typeFormed
  refine ⟨mark .leftParen :: ⟨.name var.name, 0⟩ :: mark .colon :: (inner ++ [mark .rightParen]),
    ⟨var.name, other⟩, .var rfl rfl rfl derived rfl, by simp [unplaced, same], ?_⟩
  have whole := spells_parens (spells_spaced (spells_token (legal_name_iff.mp legal))
    (spells_spaced (spells_word .colon) typeText))
  simpa [text, Token.text, mark, Keyword.text] using whole

/-- A binding written out. -/
def Binding.text (binding : Binding) : String :=
  "(" ++ binding.var.text ++ " " ++ binding.value.text ++ ")"

theorem Binding.spelled {binding : Binding} (varFormed : binding.var.WellFormed)
    (value : SpelledAs Phrase.expr Expr.unplaced binding.value binding.value.text.toList) :
    SpelledAs (fun other => .piece (.binding other)) Binding.unplaced binding
      binding.text.toList := by
  obtain ⟨first, var, varDerived, sameVar, varText⟩ := TypedVar.spelled varFormed
  obtain ⟨second, expr, derived, same, valueText⟩ := value
  refine ⟨mark .leftParen :: (first ++ (second ++ [mark .rightParen])), .mk var expr,
    .binding rfl varDerived derived rfl, ?_, ?_⟩
  · simp [unplaced, Binding.var, Binding.value, sameVar, same]
  · have whole := spells_parens (spells_spaced varText valueText)
    simpa [Binding.text, mark] using whole

/-! ## Expressions -/

namespace Expr

/-- One token that is derived as the expression itself. -/
private theorem spelled_token {token : Token} (alone : token.ReadsAlone)
    (derives : Derives [⟨token, 0⟩] (.expr other)) (same : other.unplaced = expr.unplaced)
    (text : token.text = expr.text) : SpelledAs Phrase.expr unplaced expr expr.text.toList := by
  refine ⟨[⟨token, 0⟩], other, derives, same, ?_⟩
  rw [← text]
  exact spells_token alone

/-- Besides the star, which is a word of the grammar, the primitive operators are names. -/
private theorem primitive_names_legal :
    ∀ name ∈ primitiveNames, name = "*" ∨ ReadsAlone (.name name) := by
  decide

private theorem spelled_exprs {exprs : List Expr}
    (each : ∀ expr ∈ exprs, SpelledAs Phrase.expr unplaced expr expr.text.toList) :
    SpelledAs (fun others => .pieces (others.map .expr)) (List.map unplaced) exprs
      (" ".intercalate (texts exprs)).toList := by
  rw [texts_eq_map]
  exact spelled_joined (by rfl) (by decide) each

private theorem spelled_bindings {bindings : List Binding}
    (formed : ∀ binding ∈ bindings, binding.var.WellFormed)
    (each : ∀ binding ∈ bindings,
      SpelledAs Phrase.expr unplaced binding.value binding.value.text.toList) :
    SpelledAs (fun others => .pieces (others.map .binding)) (List.map Binding.unplaced) bindings
      (" ".intercalate (bindingTexts bindings)).toList := by
  rw [bindingTexts_eq_map]
  exact spelled_joined (by rfl) (by decide)
    fun binding member => Binding.spelled (formed binding member) (each binding member)

/-- A well formed expression with finite numbers is spelled by its text. -/
theorem spelled {expr : Expr} (wellFormed : expr.WellFormed Number.IsFinite) :
    SpelledAs Phrase.expr unplaced expr expr.text.toList := by
  induction expr with
  | number range value =>
    cases value with
    | finite negative rank =>
      have alone := numeral_reads_alone (Number.text_numeral negative rank)
      refine spelled_token alone (.numeral rfl) ?_ ?_
      · simp [unplaced, Number.ofNumeral_text]
      · simp [Token.text, text]
    | nan => exact ((all_leaf rfl).mp wellFormed).elim
    | infinite negative => exact ((all_leaf rfl).mp wellFormed).elim
  | boolean range value =>
    cases value with
    | true => exact spelled_token (keyword_reads_alone .yes) (.yes rfl) rfl rfl
    | false => exact spelled_token (keyword_reads_alone .no) (.no rfl) rfl rfl
  | string range content =>
    have alone := quoted_reads_alone_iff.mpr ((all_leaf rfl).mp wellFormed)
    refine spelled_token alone (.quoted rfl) rfl ?_
    simp [Token.text, text]
  | identifier range name =>
    obtain ⟨legal, unlisted⟩ := (all_leaf rfl).mp wellFormed
    refine spelled_token (legal_name_iff.mp legal) (.name rfl) ?_ rfl
    simp [ofName, unlisted, unplaced]
  | primitive range name =>
    have listed : name ∈ primitiveNames := (all_leaf rfl).mp wellFormed
    rcases primitive_names_legal name listed with rfl | alone
    · exact spelled_token (keyword_reads_alone .star) (.star rfl) rfl rfl
    · refine spelled_token alone (.name rfl) ?_ rfl
      simp [ofName, listed, unplaced]
  | conditional range test thenBranch elseBranch testSpelled thenSpelled elseSpelled =>
    obtain ⟨_, testFormed, thenFormed, elseFormed⟩ := all_conditional.mp wellFormed
    obtain ⟨first, _, testDerived, sameTest, testText⟩ := testSpelled testFormed
    obtain ⟨second, _, thenDerived, sameThen, thenText⟩ := thenSpelled thenFormed
    obtain ⟨third, _, elseDerived, sameElse, elseText⟩ := elseSpelled elseFormed
    refine ⟨mark .leftParen :: mark .ifWord ::
        (first ++ (second ++ (third ++ [mark .rightParen]))), _,
      .conditional rfl rfl testDerived thenDerived elseDerived rfl,
      by simp [unplaced, sameTest, sameThen, sameElse], ?_⟩
    have whole := spells_parens (spells_spaced (spells_word .ifWord)
      (spells_spaced testText (spells_spaced thenText elseText)))
    simpa [text, mark, Keyword.text] using whole
  | lambda range params result body bodySpelled =>
    obtain ⟨⟨paramsFormed, resultFormed, nonempty⟩, bodyFormed⟩ := all_lambda.mp wellFormed
    obtain ⟨first, _, paramsDerived, sameParams, paramsText⟩ :=
      spelled_joined (by rfl : " ".toList = [' ']) (by decide)
        fun param member => TypedVar.spelled (paramsFormed param member)
    obtain ⟨second, _, resultDerived, sameResult, resultText⟩ := Ascription.spelled resultFormed
    obtain ⟨third, _, bodyDerived, sameBody, bodyText⟩ :=
      spelled_exprs fun expr member => bodySpelled expr member (bodyFormed expr member)
    refine ⟨mark .leftParen :: mark .lambda :: mark .leftParen :: (first ++ mark .rightParen ::
        mark .colon :: (second ++ (third ++ [mark .rightParen]))), _,
      .lambda rfl rfl rfl paramsDerived rfl rfl resultDerived bodyDerived
        (ne_nil_of_unplaced sameBody nonempty) rfl,
      by simp [unplaced, sameParams, sameResult, sameBody], ?_⟩
    have whole := spells_parens (spells_spaced (spells_word .lambda)
      (spells_spaced (spells_parens paramsText)
        (spells_spaced (spells_word .colon) (spells_spaced resultText bodyText))))
    simpa [text, mark, Keyword.text] using whole
  | application range operator operands operatorSpelled operandsSpelled =>
    obtain ⟨_, operatorFormed, operandsFormed⟩ := all_application.mp wellFormed
    obtain ⟨first, _, headDerived, sameHead, headText⟩ := operatorSpelled operatorFormed
    obtain ⟨second, _, restDerived, sameRest, restText⟩ := spelled_exprs
      fun operand member => operandsSpelled operand member (operandsFormed operand member)
    refine ⟨mark .leftParen :: (first ++ (second ++ [mark .rightParen])), _,
      .application rfl headDerived restDerived rfl, by simp [unplaced, sameHead, sameRest], ?_⟩
    cases operands with
    | nil =>
      have whole := spells_parens (spells_append headText restText (by simp [texts, Delimited]))
      simpa [text, texts, mark] using whole
    | cons operand operands =>
      have whole := spells_parens (spells_spaced headText restText)
      simpa [text, texts, mark] using whole
  | letForm range bindings body valuesSpelled bodySpelled =>
    obtain ⟨⟨varsFormed, nonempty⟩, valuesFormed, bodyFormed⟩ := all_letForm.mp wellFormed
    obtain ⟨first, _, bindingsDerived, sameBindings, bindingsText⟩ := spelled_bindings varsFormed
      fun binding member => valuesSpelled binding member (valuesFormed binding member)
    obtain ⟨second, _, bodyDerived, sameBody, bodyText⟩ :=
      spelled_exprs fun expr member => bodySpelled expr member (bodyFormed expr member)
    refine ⟨mark .leftParen :: mark .letWord :: mark .leftParen ::
        (first ++ mark .rightParen :: (second ++ [mark .rightParen])), _,
      .letForm rfl rfl rfl bindingsDerived rfl bodyDerived
        (ne_nil_of_unplaced sameBody nonempty) rfl,
      by simp [unplaced, sameBindings, sameBody], ?_⟩
    have whole := spells_parens (spells_spaced (spells_word .letWord)
      (spells_spaced (spells_parens bindingsText) bodyText))
    simpa [text, mark, Keyword.text] using whole
  | letrecForm range bindings body valuesSpelled bodySpelled =>
    obtain ⟨⟨varsFormed, nonempty⟩, valuesFormed, bodyFormed⟩ := all_letrecForm.mp wellFormed
    obtain ⟨first, _, bindingsDerived, sameBindings, bindingsText⟩ := spelled_bindings varsFormed
      fun binding member => valuesSpelled binding member (valuesFormed binding member)
    obtain ⟨second, _, bodyDerived, sameBody, bodyText⟩ :=
      spelled_exprs fun expr member => bodySpelled expr member (bodyFormed expr member)
    refine ⟨mark .leftParen :: mark .letrec :: mark .leftParen ::
        (first ++ mark .rightParen :: (second ++ [mark .rightParen])), _,
      .letrecForm rfl rfl rfl bindingsDerived rfl bodyDerived
        (ne_nil_of_unplaced sameBody nonempty) rfl,
      by simp [unplaced, sameBindings, sameBody], ?_⟩
    have whole := spells_parens (spells_spaced (spells_word .letrec)
      (spells_spaced (spells_parens bindingsText) bodyText))
    simpa [text, mark, Keyword.text] using whole
  | define range var value valueSpelled =>
    obtain ⟨varFormed, valueFormed⟩ := all_define.mp wellFormed
    obtain ⟨first, _, varDerived, sameVar, varText⟩ := TypedVar.spelled varFormed
    obtain ⟨second, _, derived, same, valueText⟩ := valueSpelled valueFormed
    refine ⟨mark .leftParen :: mark .define :: (first ++ (second ++ [mark .rightParen])), _,
      .define rfl rfl varDerived derived rfl, by simp [unplaced, sameVar, same], ?_⟩
    have whole := spells_parens (spells_spaced (spells_word .define)
      (spells_spaced varText valueText))
    simpa [text, mark, Keyword.text] using whole

end Expr

end TypedForms
