import TypedForms.Proofs.Grammar

/-! What is derived is read.  From every stack of open forms that has a place
for a phrase, taking the phrase's tokens leads to the stack in which the phrase
stands in that place, whatever tokens come after it.
-/
namespace TypedForms

/-- The kind of place that a piece needs. -/
def Piece.kind : Piece → PieceKind
  | .expr _ => .expr
  | .ascription _ => .ascription
  | .var _ => .var
  | .binding _ => .binding

variable {form outer next : OpenForm} {stack : List OpenForm} {piece : Piece} {kind : PieceKind}
  {lexeme : Lexeme}

namespace OpenForm

/-- Puts pieces into their places one after the other. -/
def fillAll : OpenForm → List Piece → Option OpenForm
  | form, [] => some form
  | form, piece :: pieces => (form.fill piece).bind fun filled => filled.fillAll pieces

theorem place_of_fill (filled : fill form piece = some next) : form.place = some piece.kind := by
  unfold fill at filled
  split at filled <;> try rfl
  · split at filled
    · simp [place, Piece.kind, *]
    · cases filled
  · cases filled

theorem carryOn_left_paren (place : form.place = some kind) :
    form.carryOn (.keyword .leftParen) = none := by
  cases form <;> first | rfl | cases place

theorem carryOn_atom (place : form.place = some kind)
    (atom : Piece.ofToken? range kind token = some piece) : form.carryOn token = none := by
  unfold carryOn
  split <;> first | rfl | (cases place; done) | (cases place; cases atom)

theorem carryOn_right_paren (closes : form.close stop = some piece) :
    form.carryOn (.keyword .rightParen) = none := by
  cases form <;> first | rfl | cases closes

end OpenForm

namespace Parser

theorem take_carries (carries : form.carryOn lexeme.token = some next) :
    take (form :: stack) lexeme = some (next :: stack) := by
  simp [take, carries]

theorem take_atom (filled : OpenForm.fill form piece = some next)
    (atom : Piece.ofToken? lexeme.range piece.kind lexeme.token = some piece) :
    take (form :: stack) lexeme = some (next :: stack) := by
  have place := OpenForm.place_of_fill filled
  have read : Piece.ofToken? ⟨lexeme.start, lexeme.stop⟩ piece.kind lexeme.token = some piece :=
    atom
  simp [take, OpenForm.carryOn_atom place atom, takePiece, place, read, filled]

theorem take_opens (place : form.place = some kind) (opened : lexeme.token = .keyword .leftParen) :
    take (form :: stack) lexeme = some (.begun lexeme.start kind :: form :: stack) := by
  have noAtom : Piece.ofToken? ⟨lexeme.start, lexeme.stop⟩ kind (.keyword .leftParen) = none := by
    cases kind <;> rfl
  simp [take, opened, OpenForm.carryOn_left_paren place, takePiece, place, noAtom]

theorem take_closes (closes : OpenForm.close lexeme.stop form = some piece)
    (filled : OpenForm.fill outer piece = some next)
    (closed : lexeme.token = .keyword .rightParen) :
    take (form :: outer :: stack) lexeme = some (next :: stack) := by
  have noAtom : ∀ kind,
      Piece.ofToken? ⟨lexeme.start, lexeme.stop⟩ kind (.keyword .rightParen) = none := by
    intro kind
    cases kind <;> rfl
  have noPiece : (form.place.bind fun kind =>
      Piece.ofToken? ⟨lexeme.start, lexeme.stop⟩ kind (.keyword .rightParen)) = none := by
    simp [noAtom]
  simp [take, closed, OpenForm.carryOn_right_paren closes, takePiece, noPiece, closeInnermost,
    closes, filled]

/-- All that taking a token can do: carry the innermost form on, fill its place with a piece that
the token is by itself, begin a form in that place, or close the innermost form and fill the place
of the one around it. -/
theorem take_cases (taken : take (form :: stack) lexeme = some reached) :
    (∃ next, form.carryOn lexeme.token = some next ∧ reached = next :: stack) ∨
    (∃ kind piece next, Piece.ofToken? lexeme.range kind lexeme.token = some piece ∧
      form.fill piece = some next ∧ reached = next :: stack) ∨
    (∃ kind, lexeme.token = .keyword .leftParen ∧ form.place = some kind ∧
      reached = .begun lexeme.start kind :: form :: stack) ∨
    (∃ outer around piece next, lexeme.token = .keyword .rightParen ∧ stack = outer :: around ∧
      form.close lexeme.stop = some piece ∧ outer.fill piece = some next ∧
      reached = next :: around) := by
  simp only [take] at taken
  split at taken
  · rename_i next carries
    exact .inl ⟨next, carries, (Option.some.inj taken).symm⟩
  · unfold takePiece at taken
    split at taken
    · rename_i piece atom
      obtain ⟨kind, _, read⟩ := Option.bind_eq_some_iff.mp atom
      obtain ⟨next, fills, rfl⟩ := Option.map_eq_some_iff.mp taken
      exact .inr (.inl ⟨kind, piece, next, read, fills, rfl⟩)
    · split at taken
      · rename_i opened
        obtain ⟨kind, place, rfl⟩ := Option.map_eq_some_iff.mp taken
        exact .inr (.inr (.inl ⟨kind, opened, place, rfl⟩))
      · rename_i closing
        cases stack with
        | nil => cases taken
        | cons outer around =>
          obtain ⟨piece, closes, taken⟩ := Option.bind_eq_some_iff.mp taken
          obtain ⟨next, fills, taken⟩ := Option.bind_eq_some_iff.mp taken
          cases taken
          exact .inr (.inr (.inr ⟨outer, around, piece, next, closing, rfl, closes, fills, rfl⟩))
      · cases taken

/-- What each token that is taken preserves holds after all of them. -/
theorem takeAll_preserves (holds : List Lexeme → List OpenForm → Prop)
    (step : ∀ {before stack lexeme next}, holds before stack → take stack lexeme = some next →
      holds (before ++ [lexeme]) next)
    (initial : holds before stack) (taken : takeAll stack lexemes = .ok reached) :
    holds (before ++ lexemes) reached := by
  induction lexemes generalizing before stack with
  | nil =>
    cases taken
    rw [List.append_nil]
    exact initial
  | cons lexeme lexemes ih =>
    simp only [takeAll] at taken
    split at taken
    · rename_i next taken_one
      rw [List.append_cons]
      exact ih (step initial taken_one) taken
    · cases taken

/-- Taking the tokens leads from one stack to another, whatever comes after them. -/
def Leads (stack : List OpenForm) (lexemes : List Lexeme) (reached : List OpenForm) : Prop :=
  ∀ more, takeAll stack (lexemes ++ more) = takeAll reached more

theorem leads_nothing (stack : List OpenForm) : Leads stack [] stack :=
  fun _ => rfl

theorem leads_token (taken : take stack lexeme = some middle)
    (later : Leads middle lexemes reached) : Leads stack (lexeme :: lexemes) reached := by
  intro more
  simp only [List.cons_append, takeAll, taken, later more]

theorem leads_append (first : Leads stack lexemes middle) (later : Leads middle others reached) :
    Leads stack (lexemes ++ others) reached := by
  intro more
  rw [List.append_assoc, first, later]

theorem leads_last (taken : take stack lexeme = some reached) : Leads stack [lexeme] reached :=
  leads_token taken (leads_nothing reached)

theorem leads_of_taken (taken : takeAll stack lexemes = .ok reached) :
    Leads stack lexemes reached :=
  takeAll_preserves (Leads stack) (fun before taken => leads_append before (leads_last taken))
    (leads_nothing stack) taken

/-- The tokens lead from every stack that has a place for the phrase to the stack in which it
stands there.  Parameters lead to a form that only waits for its arrow. -/
def Advances (lexemes : List Lexeme) : Phrase → Prop
  | .piece piece => ∀ form filled stack, OpenForm.fill form piece = some filled →
      Leads (form :: stack) lexemes (filled :: stack)
  | .pieces pieces => ∀ form filled stack, OpenForm.fillAll form pieces = some filled →
      Leads (form :: stack) lexemes (filled :: stack)
  | .params types => ∀ start stack, ∃ form,
      Leads (.typeOpened start :: stack) lexemes (form :: stack) ∧
        form.carryOn (.keyword .arrow) = some (.procResult start types)
  | .starred types => ∀ start done stack,
      Leads (.procNext start done :: stack) lexemes (.procNext start (done ++ types) :: stack)

private theorem atom_advances
    (atom : Piece.ofToken? lexeme.range piece.kind lexeme.token = some piece) :
    Advances [lexeme] (.piece piece) := by
  intro form filled stack fills
  exact leads_last (take_atom fills atom)

/-- A form that collects items of one kind ends up with all of them. -/
theorem fillAll_collects (form : List α → OpenForm) (wrap : α → Piece)
    (fills : ∀ done item, (form done).fill (wrap item) = some (form (done ++ [item])))
    (done items : List α) :
    (form done).fillAll (items.map wrap) = some (form (done ++ items)) := by
  induction items generalizing done with
  | nil => simp [OpenForm.fillAll]
  | cons item items ih => simp [OpenForm.fillAll, fills, ih]

/-- Both kinds of `let` are read alike. -/
private theorem let_advances (recursive : Bool) {bound : List Binding} {exprs : List Expr}
    (opened : opening.token = .keyword .leftParen)
    (word : OpenForm.carryOn (.opened opening.start) head.token =
      some (.letOpened opening.start recursive))
    (listOpened : listOpening.token = .keyword .leftParen)
    (bindings : Advances first (.pieces (bound.map .binding)))
    (listClosed : listClosing.token = .keyword .rightParen)
    (body : Advances second (.pieces (exprs.map .expr)))
    (closes : OpenForm.close closing.stop (.letBody opening.start recursive bound exprs) =
      some piece)
    (isExpr : piece.kind = .expr) (closed : closing.token = .keyword .rightParen) :
    Advances (opening :: head :: listOpening :: (first ++ listClosing :: (second ++ [closing])))
      (.piece piece) := by
  intro form filled stack fills
  have place := OpenForm.place_of_fill fills
  rw [isExpr] at place
  refine leads_token (take_opens place opened) ?_
  refine leads_token (take_carries word) ?_
  refine leads_token (take_carries (by rw [listOpened]; rfl)) ?_
  refine leads_append (bindings _ _ _
    (fillAll_collects (.letBindings opening.start recursive) .binding (fun _ _ => rfl) [] bound)) ?_
  refine leads_token (take_carries (by rw [listClosed]; rfl)) ?_
  refine leads_append (body _ _ _
    (fillAll_collects (.letBody opening.start recursive bound) .expr (fun _ _ => rfl) [] exprs)) ?_
  exact leads_last (take_closes closes fills closed)

/-- What is derived is read. -/
theorem derives_advances (derived : Derives lexemes phrase) : Advances lexemes phrase := by
  induction derived with
  | numberType word => exact atom_advances (by rw [word]; rfl)
  | booleanType word => exact atom_advances (by rw [word]; rfl)
  | stringType word => exact atom_advances (by rw [word]; rfl)
  | voidType word => exact atom_advances (by rw [word]; rfl)
  | namedType word => exact atom_advances (by rw [word]; rfl)
  | numeral word => exact atom_advances (by rw [word]; rfl)
  | yes word => exact atom_advances (by rw [word]; rfl)
  | no word => exact atom_advances (by rw [word]; rfl)
  | quoted word => exact atom_advances (by rw [word]; rfl)
  | name word => exact atom_advances (by rw [word]; rfl)
  | star word => exact atom_advances (by rw [word]; rfl)
  | noParams word =>
    intro start stack
    exact ⟨.procNone start, leads_last (take_carries (by rw [word]; rfl)), rfl⟩
  | someParams _ _ param rest =>
    intro start stack
    exact ⟨_, leads_append (param _ _ _ rfl) (rest start _ stack), rfl⟩
  | noStarred =>
    intro start done stack
    rw [List.append_nil]
    exact leads_nothing _
  | @nextStarred first type second types separating star _ _ param rest =>
    intro start done stack
    refine leads_token (take_carries (by rw [star]; rfl)) ?_
    refine leads_append (param _ _ _ rfl) ?_
    have later := rest start (done ++ [type]) stack
    rw [List.append_assoc] at later
    exact later
  | procType opened _ arrow _ closed params result =>
    intro form filled stack fills
    obtain ⟨waiting, read, carries⟩ := params _ (form :: stack)
    refine leads_token (take_opens (OpenForm.place_of_fill fills) opened) ?_
    refine leads_append read ?_
    refine leads_token (take_carries (by rw [arrow]; exact carries)) ?_
    refine leads_append (result _ _ _ rfl) ?_
    exact leads_last (take_closes rfl fills closed)
  | unionType opened word _ enough closed members =>
    intro form filled stack fills
    refine leads_token (take_opens (OpenForm.place_of_fill fills) opened) ?_
    refine leads_token (take_carries (by rw [word]; rfl)) ?_
    refine leads_append (members _ _ _
      (fillAll_collects (.unionMembers _) .ascription (fun _ _ => rfl) [] _)) ?_
    exact leads_last (take_closes (by simp [OpenForm.close, enough]) fills closed)
  | var opened word colon _ closed type =>
    intro form filled stack fills
    refine leads_token (take_opens (OpenForm.place_of_fill fills) opened) ?_
    refine leads_token (take_carries (by rw [word]; rfl)) ?_
    refine leads_token (take_carries (by rw [colon]; rfl)) ?_
    refine leads_append (type _ _ _ rfl) ?_
    exact leads_last (take_closes rfl fills closed)
  | binding opened _ _ closed var value =>
    intro form filled stack fills
    refine leads_token (take_opens (OpenForm.place_of_fill fills) opened) ?_
    refine leads_append (var _ _ _ rfl) ?_
    refine leads_append (value _ _ _ rfl) ?_
    exact leads_last (take_closes rfl fills closed)
  | conditional opened word _ _ _ closed test thenPart elsePart =>
    intro form filled stack fills
    refine leads_token (take_opens (OpenForm.place_of_fill fills) opened) ?_
    refine leads_token (take_carries (by rw [word]; rfl)) ?_
    refine leads_append (test _ _ _ rfl) ?_
    refine leads_append (thenPart _ _ _ rfl) ?_
    refine leads_append (elsePart _ _ _ rfl) ?_
    exact leads_last (take_closes rfl fills closed)
  | lambda opened word listOpened _ listClosed colon _ _ nonempty closed params result body =>
    intro form filled stack fills
    refine leads_token (take_opens (OpenForm.place_of_fill fills) opened) ?_
    refine leads_token (take_carries (by rw [word]; rfl)) ?_
    refine leads_token (take_carries (by rw [listOpened]; rfl)) ?_
    refine leads_append (params _ _ _
      (fillAll_collects (.lambdaParams _) .var (fun _ _ => rfl) [] _)) ?_
    refine leads_token (take_carries (by rw [listClosed]; rfl)) ?_
    refine leads_token (take_carries (by rw [colon]; rfl)) ?_
    refine leads_append (result _ _ _ rfl) ?_
    refine leads_append (body _ _ _
      (fillAll_collects (.lambdaBody _ _ _) .expr (fun _ _ => rfl) [] _)) ?_
    obtain ⟨e, rest, rfl⟩ := List.exists_cons_of_ne_nil nonempty
    exact leads_last (take_closes rfl fills closed)
  | letForm opened word listOpened _ listClosed _ nonempty closed bindings body =>
    obtain ⟨e, rest, rfl⟩ := List.exists_cons_of_ne_nil nonempty
    exact let_advances false opened (by rw [word]; rfl) listOpened bindings listClosed body rfl rfl
      closed
  | letrecForm opened word listOpened _ listClosed _ nonempty closed bindings body =>
    obtain ⟨e, rest, rfl⟩ := List.exists_cons_of_ne_nil nonempty
    exact let_advances true opened (by rw [word]; rfl) listOpened bindings listClosed body rfl rfl
      closed
  | define opened word _ _ closed var value =>
    intro form filled stack fills
    refine leads_token (take_opens (OpenForm.place_of_fill fills) opened) ?_
    refine leads_token (take_carries (by rw [word]; rfl)) ?_
    refine leads_append (var _ _ _ rfl) ?_
    refine leads_append (value _ _ _ rfl) ?_
    exact leads_last (take_closes rfl fills closed)
  | application opened _ _ closed head rest =>
    intro form filled stack fills
    refine leads_token (take_opens (OpenForm.place_of_fill fills) opened) ?_
    refine leads_append (head _ _ _ rfl) ?_
    refine leads_append (rest _ _ _
      (fillAll_collects (.operands _ _) .expr (fun _ _ => rfl) [] _)) ?_
    exact leads_last (take_closes rfl fills closed)
  | nothing =>
    intro form filled stack fills
    cases fills
    exact leads_nothing _
  | next _ _ piece rest =>
    intro form filled stack fills
    obtain ⟨next, first, later⟩ := Option.bind_eq_some_iff.mp fills
    exact leads_append (piece _ _ _ first) (rest _ _ _ later)

end Parser

end TypedForms
