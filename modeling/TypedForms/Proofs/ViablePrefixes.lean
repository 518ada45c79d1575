import TypedForms.Proofs.GrammarLanguage

/-! Tokens that have been taken can be completed.

In every stack that reading reaches, each form stands in a place of the form
around it, for a piece of the kind that it will be.  So the innermost form can
always be finished, then the next one, and in the end the whole text: reading
never goes beyond the tokens that some continuation makes derivable.
-/
namespace TypedForms

open TypedForms.Parser

/-- All tokens are in the languages of their terminals. -/
def AllValid (lexemes : List Lexeme) : Prop :=
  ∀ lexeme ∈ lexemes, lexeme.token.Valid

/-- Some continuation makes the tokens derivable. -/
def StartSymbol.Viable (start : StartSymbol) (lexemes : List Lexeme) : Prop :=
  ∃ more, AllValid more ∧ ∃ tree, start.Derives (lexemes ++ more) tree

/-! ## Forms within forms -/

/-- What an open form will be: the whole text, or a piece in a place of another form. -/
inductive Aim where
  | whole (start : StartSymbol)
  | piece (kind : PieceKind)

namespace OpenForm

/-- What the form will be when it is finished. -/
def aim : OpenForm → Aim
  | .program _ => .whole .program
  | .expression _ => .whole .expr
  | .ascription _ => .whole .ascription
  | .typeOpened _ | .procParam .. | .procNext .. | .procNone _ | .procResult .. | .procEnd ..
  | .unionMembers .. => .piece .ascription
  | .varOpened | .varNamed _ | .varType _ | .varEnd .. => .piece .var
  | .bindingOpened | .bindingValue _ | .bindingEnd .. => .piece .binding
  | .opened _ | .conditional .. | .lambdaOpened _ | .lambdaParams .. | .lambdaColon ..
  | .lambdaResult .. | .lambdaBody .. | .letOpened .. | .letBindings .. | .letBody ..
  | .defineOpened _ | .defineValue .. | .defineEnd .. | .operands .. => .piece .expr

/-- A conditional has three parts at most.  No other form can have too many. -/
def Bounded : OpenForm → Prop
  | .conditional _ done => done.length ≤ 3
  | _ => True

/-- Going on with a form changes neither what it will be nor that it can be finished. -/
structure Continues (form next : OpenForm) : Prop where
  aim : next.aim = form.aim
  bounded : next.Bounded

variable {form next : OpenForm} {piece : Piece}

theorem continues_carryOn (carries : form.carryOn token = some next) : form.Continues next := by
  unfold carryOn at carries
  split at carries <;> cases carries <;> exact ⟨rfl, by simp [Bounded]⟩

/-- A form that has taken a piece goes on.  Only the conditional counts its parts. -/
theorem continues_fill (fills : form.fill piece = some next) : form.Continues next := by
  unfold fill at fills
  split at fills <;> try (cases fills <;> exact ⟨rfl, trivial⟩)
  split at fills
  · rename_i few
    cases fills
    refine ⟨rfl, ?_⟩
    simp only [Bounded, List.length_append, List.length_singleton]
    omega
  · cases fills

/-- Every piece of the right kind fills a place. -/
theorem fill_of_place (place : form.place = some piece.kind) :
    ∃ next, form.fill piece = some next := by
  unfold OpenForm.place at place
  split at place <;> try (cases piece <;> cases place <;> exact ⟨_, rfl⟩)
  split at place
  · rename_i few
    cases piece <;> cases place
    exact ⟨_, if_pos few⟩
  · cases place

theorem aim_begun (start : Nat) (kind : PieceKind) : (begun start kind).aim = .piece kind := by
  cases kind <;> rfl

theorem bounded_begun (start : Nat) (kind : PieceKind) : (begun start kind).Bounded := by
  cases kind <;> trivial

/-- A form is closed as the piece that it was to be. -/
theorem aim_of_close (closes : form.close stop = some piece) : form.aim = .piece piece.kind := by
  unfold close at closes
  split at closes <;> try (cases closes <;> rfl)
  split at closes
  · cases closes
    rfl
  · cases closes

end OpenForm

namespace Parser

/-- Every form of the stack, the innermost first, stands in a place of the form around it, and the
outermost one is the whole text. -/
inductive Nested (start : StartSymbol) : List OpenForm → Prop where
  | outermost (aim : form.aim = .whole start) : Nested start [form]
  | inside (aim : form.aim = .piece kind) (bounded : form.Bounded)
      (place : outer.place = some kind) (around : Nested start (outer :: stack)) :
      Nested start (form :: outer :: stack)

section Nesting

variable {start : StartSymbol}

theorem nested_form (start : StartSymbol) : Nested start [start.form] := by
  cases start <;> exact .outermost rfl

/-- The innermost form may go on. -/
theorem Nested.continues (nested : Nested start (form :: stack)) (continues : form.Continues next) :
    Nested start (next :: stack) := by
  cases nested with
  | outermost aim => exact .outermost (continues.aim.trans aim)
  | inside aim _ place around =>
    exact .inside (continues.aim.trans aim) continues.bounded place around

theorem take_nested (nested : Nested start stack) (taken : take stack lexeme = some reached) :
    Nested start reached := by
  cases stack with
  | nil => cases taken
  | cons form stack =>
    obtain ⟨_, carries, rfl⟩ | ⟨_, _, _, _, fills, rfl⟩ | ⟨kind, _, place, rfl⟩ |
      ⟨_, _, _, _, _, rfl, _, fills, rfl⟩ := take_cases taken
    · exact nested.continues (OpenForm.continues_carryOn carries)
    · exact nested.continues (OpenForm.continues_fill fills)
    · exact .inside (OpenForm.aim_begun _ kind) (OpenForm.bounded_begun _ kind) place nested
    · cases nested with
      | inside _ _ _ around => exact around.continues (OpenForm.continues_fill fills)

theorem takeAll_nested (nested : Nested start stack) (taken : takeAll stack lexemes = .ok reached) :
    Nested start reached :=
  @takeAll_preserves _ [] _ _ (fun _ => Nested start) take_nested nested taken

end Nesting

/-! ## Finishing a form -/

theorem keyword_valid (word : Keyword) : (Token.keyword word).Valid :=
  Set.mem_singleton _

theorem word_valid (word : Keyword) : AllValid [⟨.keyword word, 0⟩] := by
  simpa [AllValid] using keyword_valid word

theorem sample_name_valid : (Token.name "x").Valid := by
  have found : Token.first? "x".toList = some (.name "x") := by decide
  exact (Token.first_longest_match found).valid

/-- A body that has just grown is not empty. -/
private theorem grown_body (done : List Expr) (last : Expr) :
    ∃ first rest, done ++ [last] = first :: rest :=
  List.exists_cons_of_ne_nil (List.concat_ne_nil last done)

/-- Some tokens finish the form as the piece that it is to be. -/
def Closes (form : OpenForm) : Prop :=
  ∃ lexemes piece, AllValid lexemes ∧ form.aim = .piece piece.kind ∧
    ∀ outer filled stack, outer.fill piece = some filled →
      Leads (form :: outer :: stack) lexemes (filled :: stack)

theorem closes_now (closes : form.close 1 = some piece) : Closes form := by
  refine ⟨[⟨.keyword .rightParen, 0⟩], piece, word_valid .rightParen,
    OpenForm.aim_of_close closes, ?_⟩
  intro outer filled stack fills
  exact leads_last (take_closes closes fills rfl)

theorem closes_carried (valid : token.Valid) (carries : form.carryOn token = some next)
    (later : Closes next) : Closes form := by
  obtain ⟨lexemes, piece, laterValid, aim, leads⟩ := later
  refine ⟨⟨token, 0⟩ :: lexemes, piece, List.forall_mem_cons.mpr ⟨valid, laterValid⟩, ?_, ?_⟩
  · rw [← aim, (OpenForm.continues_carryOn carries).aim]
  · intro outer filled stack fills
    exact leads_token (take_carries carries) (leads outer filled stack fills)

theorem closes_filled (derived : Derives lexemes (.piece piece)) (valid : AllValid lexemes)
    (fills : form.fill piece = some next) (later : Closes next) : Closes form := by
  obtain ⟨more, closed, laterValid, aim, leads⟩ := later
  refine ⟨lexemes ++ more, closed, List.forall_mem_append.mpr ⟨valid, laterValid⟩, ?_, ?_⟩
  · rw [← aim, (OpenForm.continues_fill fills).aim]
  · intro outer filled stack fillsOuter
    exact leads_append (derives_advances derived form next (outer :: stack) fills)
      (leads outer filled stack fillsOuter)

/-- Any place for an ascription can be filled with `number`. -/
theorem closes_type (fills : form.fill (.ascription (.number ⟨0, 6⟩)) = some next)
    (later : Closes next) : Closes form :=
  closes_filled (@Derives.numberType ⟨.keyword .number, 0⟩ rfl) (word_valid .number) fills later

/-- Any place for an expression can be filled with `#t`. -/
theorem closes_expr (fills : form.fill (.expr (.boolean ⟨0, 2⟩ true)) = some next)
    (later : Closes next) : Closes form :=
  closes_filled (@Derives.yes ⟨.keyword .yes, 0⟩ rfl) (word_valid .yes) fills later

/-- Any place for a typed variable can be filled with `(x : number)`. -/
theorem closes_var (fills : form.fill (.var ⟨"x", .number ⟨3, 9⟩⟩) = some next)
    (later : Closes next) : Closes form := by
  have derived : Derives [⟨.keyword .leftParen, 0⟩, ⟨.name "x", 1⟩, ⟨.keyword .colon, 2⟩,
      ⟨.keyword .number, 3⟩, ⟨.keyword .rightParen, 9⟩] (.piece (.var ⟨"x", .number ⟨3, 9⟩⟩)) :=
    .var rfl rfl rfl (@Derives.numberType ⟨.keyword .number, 3⟩ rfl) rfl
  exact closes_filled derived (by simp [AllValid, sample_name_valid, keyword_valid]) fills later

private theorem closes_procResult : Closes (.procResult start params) :=
  closes_type rfl (closes_now rfl)

private theorem closes_procNext : Closes (.procNext start done) :=
  closes_carried (keyword_valid .arrow) rfl closes_procResult

private theorem closes_unionMembers : Closes (.unionMembers start done) := by
  refine closes_type rfl (closes_type rfl ?_)
  exact closes_now (if_pos (by simp))

private theorem closes_varType : Closes (.varType name) :=
  closes_type rfl (closes_now rfl)

private theorem closes_varNamed : Closes (.varNamed name) :=
  closes_carried (keyword_valid .colon) rfl closes_varType

private theorem closes_conditional (few : done.length ≤ 3) : Closes (.conditional start done) := by
  match done with
  | [] => exact closes_expr rfl (closes_expr rfl (closes_expr rfl (closes_now rfl)))
  | [_] => exact closes_expr rfl (closes_expr rfl (closes_now rfl))
  | [_, _] => exact closes_expr rfl (closes_now rfl)
  | [_, _, _] => exact closes_now rfl
  | _ :: _ :: _ :: _ :: _ =>
    simp only [List.length_cons] at few
    omega

private theorem closes_lambdaBody : Closes (.lambdaBody start params result done) := by
  refine closes_expr rfl ?_
  obtain ⟨first, rest, same⟩ := grown_body done (.boolean ⟨0, 2⟩ true)
  rw [same]
  exact closes_now rfl

private theorem closes_lambdaResult : Closes (.lambdaResult start params) :=
  closes_type rfl closes_lambdaBody

private theorem closes_lambdaColon : Closes (.lambdaColon start params) :=
  closes_carried (keyword_valid .colon) rfl closes_lambdaResult

private theorem closes_lambdaParams : Closes (.lambdaParams start done) :=
  closes_carried (keyword_valid .rightParen) rfl closes_lambdaColon

private theorem closes_letBody : Closes (.letBody start recursive bindings done) := by
  refine closes_expr rfl ?_
  obtain ⟨first, rest, same⟩ := grown_body done (.boolean ⟨0, 2⟩ true)
  rw [same]
  cases recursive <;> exact closes_now rfl

private theorem closes_letBindings : Closes (.letBindings start recursive done) :=
  closes_carried (keyword_valid .rightParen) rfl closes_letBody

private theorem closes_bindingValue : Closes (.bindingValue var) :=
  closes_expr rfl (closes_now rfl)

private theorem closes_defineValue : Closes (.defineValue start var) :=
  closes_expr rfl (closes_now rfl)

/-- Every form but the whole text can be finished, from wherever it stands. -/
theorem closes_of_aim (aim : form.aim = .piece kind) (bounded : form.Bounded) : Closes form := by
  cases form with
  | program | expression | ascription => cases aim
  | typeOpened =>
    refine closes_carried (keyword_valid .empty) rfl ?_
    exact closes_carried (keyword_valid .arrow) rfl closes_procResult
  | procNone => exact closes_carried (keyword_valid .arrow) rfl closes_procResult
  | procParam => exact closes_type rfl closes_procNext
  | procNext => exact closes_procNext
  | procResult => exact closes_procResult
  | procEnd | varEnd | bindingEnd | defineEnd | operands => exact closes_now rfl
  | unionMembers => exact closes_unionMembers
  | varOpened => exact closes_carried sample_name_valid rfl closes_varNamed
  | varNamed => exact closes_varNamed
  | varType => exact closes_varType
  | opened => exact closes_expr rfl (closes_now rfl)
  | conditional => exact closes_conditional bounded
  | lambdaOpened => exact closes_carried (keyword_valid .leftParen) rfl closes_lambdaParams
  | lambdaParams => exact closes_lambdaParams
  | lambdaColon => exact closes_lambdaColon
  | lambdaResult => exact closes_lambdaResult
  | lambdaBody => exact closes_lambdaBody
  | letOpened => exact closes_carried (keyword_valid .leftParen) rfl closes_letBindings
  | letBindings => exact closes_letBindings
  | letBody => exact closes_letBody
  | bindingOpened => exact closes_var rfl closes_bindingValue
  | bindingValue => exact closes_bindingValue
  | defineOpened => exact closes_var rfl closes_defineValue
  | defineValue => exact closes_defineValue

/-! ## Finishing the text -/

/-- The forms of a nested stack are finished from the innermost to the outermost. -/
theorem nested_finishes (nested : Nested start (form :: stack)) :
    ∃ lexemes whole, AllValid lexemes ∧ whole.aim = .whole start ∧
      Leads (form :: stack) lexemes [whole] := by
  induction stack generalizing form with
  | nil =>
    cases nested with
    | outermost aim => exact ⟨[], form, by simp [AllValid], aim, leads_nothing _⟩
  | cons outer stack ih =>
    cases nested with
    | inside aim bounded place around =>
      obtain ⟨lexemes, piece, valid, closedAim, closes⟩ := closes_of_aim aim bounded
      obtain rfl : _ = piece.kind := Aim.piece.inj (aim.symm.trans closedAim)
      obtain ⟨filled, fills⟩ := OpenForm.fill_of_place place
      obtain ⟨more, whole, moreValid, wholeAim, later⟩ :=
        ih (around.continues (OpenForm.continues_fill fills))
      exact ⟨lexemes ++ more, whole, List.forall_mem_append.mpr ⟨valid, moreValid⟩, wholeAim,
        leads_append (closes outer filled stack fills) later⟩

/-- A whole text that is not finished lacks one expression or ascription. -/
theorem whole_finishes (aim : form.aim = .whole start) :
    ∃ lexemes reached tree, AllValid lexemes ∧ Leads [form] lexemes reached ∧
      start.finished? reached = some tree := by
  have number := derives_advances (@Derives.numberType ⟨.keyword .number, 0⟩ rfl)
  have yes := derives_advances (@Derives.yes ⟨.keyword .yes, 0⟩ rfl)
  cases form with
  | program done =>
    cases aim
    obtain ⟨first, rest, same⟩ := grown_body done (.boolean ⟨0, 2⟩ true)
    refine ⟨_, [.program (first :: rest)], first :: rest, word_valid .yes, ?_, rfl⟩
    exact yes (.program done) (.program (first :: rest)) [] (by rw [← same]; rfl)
  | expression done =>
    cases aim
    cases done with
    | none => exact ⟨_, _, _, word_valid .yes, yes (.expression none) _ [] rfl, rfl⟩
    | some expr => exact ⟨[], _, expr, by simp [AllValid], leads_nothing _, rfl⟩
  | ascription done =>
    cases aim
    cases done with
    | none => exact ⟨_, _, _, word_valid .number, number (.ascription none) _ [] rfl, rfl⟩
    | some type => exact ⟨[], _, type, by simp [AllValid], leads_nothing _, rfl⟩
  | _ => cases aim

/-- No continuation mends what has been refused. -/
theorem refused_append (refused : takeAll stack lexemes = .error lexeme) (more : List Lexeme) :
    takeAll stack (lexemes ++ more) = .error lexeme := by
  induction lexemes generalizing stack with
  | nil => cases refused
  | cons head lexemes ih =>
    simp only [takeAll, List.cons_append] at refused ⊢
    split at refused
    · exact ih refused
    · exact refused

end Parser

/-- Exactly the viable sequences of tokens can be taken: derived tokens are all taken, those at the
beginning too. -/
theorem StartSymbol.viable_iff {start : StartSymbol} :
    start.Viable lexemes ↔ ∃ reached, takeAll [start.form] lexemes = .ok reached := by
  constructor
  · rintro ⟨more, _, tree, derived⟩
    obtain ⟨final, takenMore, _⟩ := taken_iff.mpr derived
    cases taken : takeAll [start.form] lexemes with
    | ok reached => exact ⟨reached, rfl⟩
    | error lexeme =>
      rw [refused_append taken more] at takenMore
      cases takenMore
  · rintro ⟨reached, taken⟩
    have nested := takeAll_nested (nested_form start) taken
    cases reached with
    | nil => cases nested
    | cons form stack =>
      obtain ⟨more, whole, moreValid, aim, leads⟩ := nested_finishes nested
      obtain ⟨last, final, tree, lastValid, leadsLast, finished⟩ := whole_finishes aim
      refine ⟨more ++ last, List.forall_mem_append.mpr ⟨moreValid, lastValid⟩, tree, ?_⟩
      refine taken_iff.mp ⟨final, ?_, finished⟩
      have all := leads_append (leads_of_taken taken) (leads_append leads leadsLast) []
      rw [List.append_nil] at all
      exact all

end TypedForms
