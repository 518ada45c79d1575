import TypedForms.Proofs.Grammar
import TypedForms.Proofs.TreeNodes

/-! Trees whose places have been moved.

When every offset of the tokens is moved in the same way, the tree that they are
derived as is the one whose places have been moved.  All that is asked of the way
is that no token changes its length.
-/
namespace TypedForms

variable (move : Nat → Nat)

/-- The range with both offsets moved. -/
def Range.moved (range : Range) : Range := ⟨move range.start, move range.stop⟩

/-- The token at the place that its beginning is moved to. -/
def Lexeme.moved (lexeme : Lexeme) : Lexeme := ⟨lexeme.token, move lexeme.start⟩

namespace Ascription

mutual

/-- The ascription with all its places moved. -/
def moved : Ascription → Ascription
  | .number range => .number (range.moved move)
  | .boolean range => .boolean (range.moved move)
  | .string range => .string (range.moved move)
  | .void range => .void (range.moved move)
  | .named range name => .named (range.moved move) name
  | .proc range params result => .proc (range.moved move) (movedAll params) result.moved
  | .union range members => .union (range.moved move) (movedAll members)

/-- The ascriptions of a list with their places moved. -/
def movedAll : List Ascription → List Ascription
  | [] => []
  | first :: rest => first.moved :: movedAll rest

end

@[simp] theorem movedAll_eq_map (list : List Ascription) :
    movedAll move list = list.map (moved move) := by
  induction list with
  | nil => rfl
  | cons first rest ih => simp [movedAll, ih]

end Ascription

/-- The variable with the places of its type moved. -/
def TypedVar.moved (var : TypedVar) : TypedVar := ⟨var.name, var.type.moved move⟩

namespace Expr

mutual

/-- The expression with all its places moved. -/
def moved : Expr → Expr
  | .number range value => .number (range.moved move) value
  | .boolean range value => .boolean (range.moved move) value
  | .string range content => .string (range.moved move) content
  | .identifier range name => .identifier (range.moved move) name
  | .primitive range name => .primitive (range.moved move) name
  | .conditional range test thenBranch elseBranch =>
    .conditional (range.moved move) test.moved thenBranch.moved elseBranch.moved
  | .lambda range params result body =>
    .lambda (range.moved move) (params.map (TypedVar.moved move)) (result.moved move)
      (movedAll body)
  | .application range operator operands =>
    .application (range.moved move) operator.moved (movedAll operands)
  | .letForm range bindings body =>
    .letForm (range.moved move) (movedBindings bindings) (movedAll body)
  | .letrecForm range bindings body =>
    .letrecForm (range.moved move) (movedBindings bindings) (movedAll body)
  | .define range var value => .define (range.moved move) (var.moved move) value.moved

/-- The expressions of a list with their places moved. -/
def movedAll : List Expr → List Expr
  | [] => []
  | first :: rest => first.moved :: movedAll rest

/-- The bindings of a list with their places moved. -/
def movedBindings : List Binding → List Binding
  | [] => []
  | .mk var value :: rest => .mk (var.moved move) value.moved :: movedBindings rest

end

end Expr

/-- The binding with its places moved. -/
def Binding.moved (binding : Binding) : Binding :=
  .mk (binding.var.moved move) (binding.value.moved move)

namespace Expr

@[simp] theorem movedAll_eq_map (list : List Expr) :
    movedAll move list = list.map (moved move) := by
  induction list with
  | nil => rfl
  | cons first rest ih => simp [movedAll, ih]

@[simp] theorem movedBindings_eq_map (list : List Binding) :
    movedBindings move list = list.map (Binding.moved move) := by
  induction list with
  | nil => rfl
  | cons first rest ih =>
    cases first with
    | mk var value => simp [movedBindings, ih, Binding.moved, Binding.var, Binding.value]

theorem moved_ofName (range : Range) (name : String) :
    (ofName range name).moved move = ofName (range.moved move) name := by
  unfold ofName
  split <;> rfl

end Expr

/-- The piece with its places moved. -/
def Piece.moved : Piece → Piece
  | .expr value => .expr (value.moved move)
  | .ascription value => .ascription (value.moved move)
  | .var value => .var (value.moved move)
  | .binding value => .binding (value.moved move)

/-- The phrase with its places moved. -/
def Phrase.moved : Phrase → Phrase
  | .piece finished => .piece (finished.moved move)
  | .pieces list => .pieces (list.map (Piece.moved move))
  | .params types => .params (types.map (Ascription.moved move))
  | .starred types => .starred (types.map (Ascription.moved move))

variable {move : Nat → Nat}

/-- The end of a token is moved as its beginning is. -/
def Lexeme.Kept (move : Nat → Nat) (lexeme : Lexeme) : Prop :=
  (lexeme.moved move).stop = move lexeme.stop

namespace Lexeme.Kept

variable {lexeme : Lexeme} (kept : lexeme.Kept move)
include kept

theorem range : lexeme.range.moved move = (lexeme.moved move).range := by
  rw [Lexeme.range, Lexeme.range, kept]
  rfl

/-- The range of a form that the token closes. -/
theorem form (start : Nat) :
    Range.moved move ⟨start, lexeme.stop⟩ = ⟨move start, (lexeme.moved move).stop⟩ := by
  rw [kept]
  rfl

end Lexeme.Kept

private theorem items_moved {wrap : α → Piece} {moved : α → α} {items : List α}
    (derived : Derives lexemes (Phrase.moved move (.pieces (items.map wrap))))
    (same : ∀ item, (wrap item).moved move = wrap (moved item)) :
    Derives lexemes (.pieces ((items.map moved).map wrap)) := by
  simpa [Phrase.moved, Function.comp_def, same] using derived

/-- What is derived from tokens is derived from the moved tokens with its places moved. -/
theorem derives_moved (derived : Derives lexemes phrase)
    (kept : ∀ lexeme ∈ lexemes, lexeme.Kept move) :
    Derives (lexemes.map (Lexeme.moved move)) (phrase.moved move) := by
  induction derived with
  | numberType word | booleanType word | stringType word | voidType word | namedType word =>
    simp only [Phrase.moved, Piece.moved, Ascription.moved, (kept _ List.mem_cons_self).range]
    constructor
    exact word
  | noParams word => exact .noParams word
  | numeral word | yes word | no word | quoted word | star word =>
    simp only [Phrase.moved, Piece.moved, Expr.moved, (kept _ List.mem_cons_self).range]
    constructor
    exact word
  | name word =>
    simp only [Phrase.moved, Piece.moved, Expr.moved_ofName, (kept _ List.mem_cons_self).range]
    exact .name word
  | procType opened _ arrow _ closed params result =>
    simp only [List.forall_mem_cons, List.forall_mem_append] at kept
    obtain ⟨_, first, _, second, last, _⟩ := kept
    simp only [List.map_cons, List.map_append, List.map_nil, Phrase.moved, Piece.moved,
      Ascription.moved, Ascription.movedAll_eq_map, last.form]
    exact .procType opened (params first) arrow (result second) closed
  | unionType opened word _ enough closed members =>
    simp only [List.forall_mem_cons, List.forall_mem_append] at kept
    obtain ⟨_, _, inner, last, _⟩ := kept
    simp only [List.map_cons, List.map_append, List.map_nil, Phrase.moved, Piece.moved,
      Ascription.moved, Ascription.movedAll_eq_map, last.form]
    exact .unionType opened word (items_moved (members inner) fun _ => rfl) (by simpa using enough)
      closed
  | someParams _ _ param rest =>
    simp only [List.forall_mem_append] at kept
    rw [List.map_append]
    exact .someParams (param kept.1) (rest kept.2)
  | noStarred => exact .noStarred
  | nextStarred star _ _ param rest =>
    simp only [List.forall_mem_cons, List.forall_mem_append] at kept
    rw [List.map_cons, List.map_append]
    exact .nextStarred star (param kept.2.1) (rest kept.2.2)
  | var opened word colon _ closed type =>
    simp only [List.forall_mem_cons, List.forall_mem_append] at kept
    obtain ⟨_, _, _, inner, _⟩ := kept
    simp only [List.map_cons, List.map_append, List.map_nil]
    exact .var opened word colon (type inner) closed
  | binding opened _ _ closed var value =>
    simp only [List.forall_mem_cons, List.forall_mem_append] at kept
    obtain ⟨_, first, second, _⟩ := kept
    simp only [List.map_cons, List.map_append, List.map_nil]
    exact .binding opened (var first) (value second) closed
  | conditional opened word _ _ _ closed test thenPart elsePart =>
    simp only [List.forall_mem_cons, List.forall_mem_append] at kept
    obtain ⟨_, _, first, second, third, last, _⟩ := kept
    simp only [List.map_cons, List.map_append, List.map_nil, Phrase.moved, Piece.moved,
      Expr.moved, last.form]
    exact .conditional opened word (test first) (thenPart second) (elsePart third) closed
  | lambda opened word listOpened _ listClosed colon _ _ nonempty closed params result body =>
    simp only [List.forall_mem_cons, List.forall_mem_append] at kept
    obtain ⟨_, _, _, first, _, _, second, third, last, _⟩ := kept
    simp only [List.map_cons, List.map_append, List.map_nil, Phrase.moved, Piece.moved,
      Expr.moved, Expr.movedAll_eq_map, last.form]
    exact .lambda opened word listOpened (items_moved (params first) fun _ => rfl) listClosed colon
      (result second) (items_moved (body third) fun _ => rfl) (by simpa using nonempty) closed
  | letForm opened word listOpened _ listClosed _ nonempty closed bindings body =>
    simp only [List.forall_mem_cons, List.forall_mem_append] at kept
    obtain ⟨_, _, _, first, _, second, last, _⟩ := kept
    simp only [List.map_cons, List.map_append, List.map_nil, Phrase.moved, Piece.moved,
      Expr.moved, Expr.movedAll_eq_map, Expr.movedBindings_eq_map, last.form]
    exact .letForm opened word listOpened (items_moved (bindings first) fun _ => rfl) listClosed
      (items_moved (body second) fun _ => rfl) (by simpa using nonempty) closed
  | letrecForm opened word listOpened _ listClosed _ nonempty closed bindings body =>
    simp only [List.forall_mem_cons, List.forall_mem_append] at kept
    obtain ⟨_, _, _, first, _, second, last, _⟩ := kept
    simp only [List.map_cons, List.map_append, List.map_nil, Phrase.moved, Piece.moved,
      Expr.moved, Expr.movedAll_eq_map, Expr.movedBindings_eq_map, last.form]
    exact .letrecForm opened word listOpened (items_moved (bindings first) fun _ => rfl) listClosed
      (items_moved (body second) fun _ => rfl) (by simpa using nonempty) closed
  | define opened word _ _ closed var value =>
    simp only [List.forall_mem_cons, List.forall_mem_append] at kept
    obtain ⟨_, _, first, second, last, _⟩ := kept
    simp only [List.map_cons, List.map_append, List.map_nil, Phrase.moved, Piece.moved,
      Expr.moved, last.form]
    exact .define opened word (var first) (value second) closed
  | application opened _ _ closed head rest =>
    simp only [List.forall_mem_cons, List.forall_mem_append] at kept
    obtain ⟨_, first, second, last, _⟩ := kept
    simp only [List.map_cons, List.map_append, List.map_nil, Phrase.moved, Piece.moved,
      Expr.moved, Expr.movedAll_eq_map, last.form]
    exact .application opened (head first) (items_moved (rest second) fun _ => rfl) closed
  | nothing => exact .nothing
  | next _ _ piece rest =>
    simp only [List.forall_mem_append] at kept
    rw [List.map_append]
    exact .next (piece kept.1) (rest kept.2)

end TypedForms
