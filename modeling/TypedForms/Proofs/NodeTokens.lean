import TypedForms.Proofs.GrammarSoundness

/-! The nodes of a tree and the tokens that they were read from.

Expressions and ascriptions stand inside each other, so both are nodes here.
Every node was read from a run of tokens of its own, and the runs of its children
lie in that run one after the other, with tokens between them that belong to the
node itself.  Whatever is known of the order of the tokens follows for the ranges.
-/
namespace TypedForms

/-- A node of a tree. -/
inductive Node where
  | expr (value : Expr)
  | ascription (value : Ascription)

namespace Node

/-- The place of a node. -/
def range : Node → Range
  | .expr value => value.range
  | .ascription value => value.range

/-- The nodes right below a node, in the order in which they are written. -/
def children : Node → List Node
  | .ascription (.proc _ params result) => params.map .ascription ++ [.ascription result]
  | .ascription (.union _ members) => members.map .ascription
  | .ascription _ => []
  | .expr (.conditional _ test thenBranch elseBranch) =>
    [.expr test, .expr thenBranch, .expr elseBranch]
  | .expr (.lambda _ params result body) =>
    params.map (fun var => .ascription var.type) ++ .ascription result :: body.map .expr
  | .expr (.application _ operator operands) => .expr operator :: operands.map .expr
  | .expr (.letForm _ bindings body) | .expr (.letrecForm _ bindings body) =>
    bindings.flatMap (fun binding => [.ascription binding.var.type, .expr binding.value]) ++
      body.map .expr
  | .expr (.define _ var value) => [.ascription var.type, .expr value]
  | .expr _ => []

/-- The first node is the second or lies at any depth below it. -/
inductive Inside (node : Node) : Node → Prop where
  | here : Inside node node
  | deeper (listed : child ∈ parent.children) (inside : Inside node child) : Inside node parent

/-- The tokens are derived as the node. -/
def DerivedFrom (lexemes : List Lexeme) : Node → Prop
  | .expr value => Derives lexemes (.expr value)
  | .ascription value => Derives lexemes (.ascription value)

end Node

/-! ## The tokens of the children -/

/-- The nodes were read one after the other, with any tokens before, between and after them. -/
inductive Arranged : List Lexeme → List Node → Prop where
  | nothing : Arranged [] []
  | gap (later : Arranged lexemes nodes) : Arranged (lexeme :: lexemes) nodes
  | read (derived : node.DerivedFrom first) (later : Arranged second nodes) :
      Arranged (first ++ second) (node :: nodes)

namespace Arranged

theorem append (arranged : Arranged first nodes) (later : Arranged second others) :
    Arranged (first ++ second) (nodes ++ others) := by
  induction arranged with
  | nothing => exact later
  | gap _ ih => exact .gap ih
  | read derived _ ih =>
    rw [List.append_assoc]
    exact .read derived ih

theorem closed (arranged : Arranged lexemes nodes) (closing : Lexeme) :
    Arranged (lexemes ++ [closing]) nodes := by
  simpa using arranged.append (.gap .nothing)

theorem expr {value : Expr} (derived : Derives lexemes (.expr value)) :
    Arranged lexemes [.expr value] := by
  have here : Node.DerivedFrom lexemes (.expr value) := derived
  simpa using Arranged.read here .nothing

theorem ascription {value : Ascription} (derived : Derives lexemes (.ascription value)) :
    Arranged lexemes [.ascription value] := by
  have here : Node.DerivedFrom lexemes (.ascription value) := derived
  simpa using Arranged.read here .nothing

/-- Each of the nodes was read from a run of the tokens. -/
theorem run (arranged : Arranged lexemes nodes) (listed : node ∈ nodes) :
    ∃ own, own <:+: lexemes ∧ node.DerivedFrom own := by
  induction arranged with
  | nothing => cases listed
  | gap _ ih =>
    obtain ⟨own, part, derived⟩ := ih listed
    exact ⟨own, part.trans (List.suffix_cons _ _).isInfix, derived⟩
  | read derived _ ih =>
    rcases List.mem_cons.mp listed with rfl | listed
    · exact ⟨_, (List.prefix_append _ _).isInfix, derived⟩
    · obtain ⟨own, part, derived⟩ := ih listed
      exact ⟨own, part.trans (List.suffix_append _ _).isInfix, derived⟩

end Arranged

/-- The nodes of a piece that lie in no other node of it. -/
def Piece.roots : Piece → List Node
  | .expr value => [.expr value]
  | .ascription value => [.ascription value]
  | .var value => [.ascription value.type]
  | .binding value => [.ascription value.var.type, .expr value.value]

theorem var_arranged {var : TypedVar} (derived : Derives lexemes (.piece (.var var))) :
    Arranged lexemes [.ascription var.type] := by
  cases derived with
  | var _ _ _ type _ => exact .gap (.gap (.gap ((Arranged.ascription type).closed _)))

theorem Piece.roots_arranged {piece : Piece} (derived : Derives lexemes (.piece piece)) :
    Arranged lexemes piece.roots := by
  cases piece with
  | expr value => exact .expr derived
  | ascription value => exact .ascription derived
  | var value => exact var_arranged derived
  | binding value =>
    cases derived with
    | binding _ var value _ =>
      exact .gap ((var_arranged var).append ((Arranged.expr value).closed _))

theorem items_arranged {wrap : α → Piece} {items : List α}
    (derived : Derives lexemes (.pieces (items.map wrap))) :
    Arranged lexemes (items.flatMap fun item => (wrap item).roots) := by
  induction items generalizing lexemes with
  | nil =>
    cases derived
    exact .nothing
  | cons item items ih =>
    obtain ⟨first, second, rfl, itemDerived, restDerived⟩ := derives_cons_iff.mp derived
    exact (Piece.roots_arranged itemDerived).append (ih restDerived)

theorem starred_arranged {types : List Ascription} (derived : Derives lexemes (.starred types)) :
    Arranged lexemes (types.map .ascription) := by
  induction types generalizing lexemes with
  | nil =>
    cases derived
    exact .nothing
  | cons type types ih =>
    cases derived with
    | nextStarred _ param rest => exact .gap ((Arranged.ascription param).append (ih rest))

theorem params_arranged {types : List Ascription} (derived : Derives lexemes (.params types)) :
    Arranged lexemes (types.map .ascription) := by
  cases derived with
  | noParams => exact .gap .nothing
  | someParams param rest => exact (Arranged.ascription param).append (starred_arranged rest)

theorem exprs_arranged {exprs : List Expr} (derived : Derives lexemes (.pieces (exprs.map .expr))) :
    Arranged lexemes (exprs.map .expr) := by
  have arranged := items_arranged derived
  simpa only [Piece.roots, ← List.map_eq_flatMap] using arranged

namespace Node

theorem children_ofName (range : Range) (name : String) :
    (Node.expr (Expr.ofName range name)).children = [] := by
  unfold Expr.ofName
  split <;> rfl

/-- The children of a node were read one after the other from the tokens of the node. -/
theorem DerivedFrom.children {node : Node} (derived : node.DerivedFrom lexemes) :
    Arranged lexemes node.children := by
  cases node with
  | ascription value =>
    change Derives lexemes (.ascription value) at derived
    cases derived with
    | numberType | booleanType | stringType | voidType | namedType => exact .gap .nothing
    | procType _ params _ result _ =>
      exact .gap ((params_arranged params).append (.gap ((Arranged.ascription result).closed _)))
    | unionType _ _ members _ _ =>
      have arranged := items_arranged members
      simp only [Piece.roots, ← List.map_eq_flatMap] at arranged
      exact .gap (.gap (arranged.closed _))
  | expr value =>
    change Derives lexemes (.expr value) at derived
    cases derived with
    | numeral | yes | no | quoted | star => exact .gap .nothing
    | name =>
      rw [children_ofName]
      exact .gap .nothing
    | conditional _ _ test thenPart elsePart _ =>
      exact .gap (.gap ((Arranged.expr test).append ((Arranged.expr thenPart).append
        ((Arranged.expr elsePart).closed _))))
    | lambda _ _ _ params _ _ result body _ _ =>
      have arranged := items_arranged params
      simp only [Piece.roots, ← List.map_eq_flatMap] at arranged
      exact .gap (.gap (.gap (arranged.append (.gap (.gap ((Arranged.ascription result).append
        ((exprs_arranged body).closed _)))))))
    | letForm _ _ _ bindings _ body _ _ | letrecForm _ _ _ bindings _ body _ _ =>
      exact .gap (.gap (.gap ((items_arranged bindings).append
        (.gap ((exprs_arranged body).closed _)))))
    | define _ _ var value _ =>
      exact .gap (.gap ((var_arranged var).append ((Arranged.expr value).closed _)))
    | application _ head rest _ =>
      exact .gap ((Arranged.expr head).append ((exprs_arranged rest).closed _))

/-- Whatever lies inside a node was read from a run of its tokens. -/
theorem Inside.run {node outer : Node} (inside : node.Inside outer)
    (derived : outer.DerivedFrom lexemes) : ∃ own, own <:+: lexemes ∧ node.DerivedFrom own := by
  induction inside generalizing lexemes with
  | here => exact ⟨lexemes, List.infix_rfl, derived⟩
  | deeper listed _ ih =>
    obtain ⟨middle, inner, childDerived⟩ := derived.children.run listed
    obtain ⟨own, innermost, nodeDerived⟩ := ih childDerived
    exact ⟨own, innermost.trans inner, nodeDerived⟩

end Node

/-! ## From tokens to ranges -/

/-- The range goes from the first token to the last. -/
structure Spans (lexemes : List Lexeme) (range : Range) : Prop where
  first : ∃ lexeme ∈ lexemes.head?, range.start = lexeme.start
  last : ∃ lexeme ∈ lexemes.getLast?, range.stop = lexeme.stop

theorem spans_single (lexeme : Lexeme) : Spans [lexeme] lexeme.range :=
  ⟨⟨lexeme, rfl, rfl⟩, ⟨lexeme, rfl, rfl⟩⟩

theorem spans_form {lexemes : List Lexeme} (opening closing : Lexeme)
    (ends : lexemes.getLast? = some closing) :
    Spans (opening :: lexemes) ⟨opening.start, closing.stop⟩ :=
  ⟨⟨opening, rfl, rfl⟩, ⟨closing, by simp [List.getLast?_cons, ends], rfl⟩⟩

theorem Expr.range_ofName (place : Range) (name : String) : (ofName place name).range = place := by
  unfold ofName
  split <;> rfl

/-- The range of a node goes from its first token to its last. -/
theorem Node.DerivedFrom.spans {node : Node} (derived : node.DerivedFrom lexemes) :
    Spans lexemes node.range := by
  cases node with
  | ascription value =>
    change Derives lexemes (.ascription value) at derived
    cases derived with
    | numberType | booleanType | stringType | voidType | namedType => exact spans_single _
    | procType | unionType => exact spans_form _ _ (by simp [List.getLast?_cons])
  | expr value =>
    change Derives lexemes (.expr value) at derived
    cases derived with
    | numeral | yes | no | quoted | star => exact spans_single _
    | name =>
      rw [Node.range, Expr.range_ofName]
      exact spans_single _
    | _ => exact spans_form _ _ (by simp [List.getLast?_cons])

/-- No token is empty, and each ends before the next begins. -/
structure InOrder (lexemes : List Lexeme) : Prop where
  proper : ∀ lexeme ∈ lexemes, lexeme.start < lexeme.stop
  apart : lexemes.Pairwise fun first later => first.stop ≤ later.start

theorem InOrder.run (ordered : InOrder lexemes) (part : own <:+: lexemes) : InOrder own :=
  ⟨fun lexeme member => ordered.proper lexeme (part.subset member),
    ordered.apart.sublist part.sublist⟩

namespace Spans

variable {lexemes own : List Lexeme} {range inner : Range}

/-- What is spanned lies between the first token and the last. -/
theorem encloses (spans : Spans lexemes range) (ordered : InOrder lexemes)
    (member : lexeme ∈ lexemes) : range.start ≤ lexeme.start ∧ lexeme.stop ≤ range.stop := by
  obtain ⟨⟨first, isFirst, begins⟩, last, isLast, ends⟩ := spans
  constructor
  · obtain ⟨rest, rfl⟩ := List.head?_eq_some_iff.mp isFirst
    rcases List.mem_cons.mp member with rfl | later
    · omega
    · have := (List.pairwise_cons.mp ordered.apart).1 lexeme later
      have := ordered.proper first List.mem_cons_self
      omega
  · obtain ⟨rest, rfl⟩ := List.getLast?_eq_some_iff.mp isLast
    rcases List.mem_append.mp member with earlier | same
    · have := (List.pairwise_append.mp ordered.apart).2.2 lexeme earlier last (by simp)
      have := ordered.proper last (by simp)
      omega
    · rw [List.mem_singleton.mp same]
      omega

theorem first_mem (spans : Spans lexemes range) :
    ∃ lexeme ∈ lexemes, range.start = lexeme.start := by
  obtain ⟨lexeme, isFirst, begins⟩ := spans.first
  exact ⟨lexeme, List.mem_of_mem_head? isFirst, begins⟩

theorem last_mem (spans : Spans lexemes range) :
    ∃ lexeme ∈ lexemes, range.stop = lexeme.stop := by
  obtain ⟨lexeme, isLast, ends⟩ := spans.last
  exact ⟨lexeme, List.mem_of_getLast? isLast, ends⟩

theorem proper (spans : Spans lexemes range) (ordered : InOrder lexemes) :
    range.start < range.stop := by
  obtain ⟨lexeme, member, begins⟩ := spans.first_mem
  have := ordered.proper lexeme member
  have := (spans.encloses ordered member).2
  omega

/-- A part of the tokens spans a range inside. -/
theorem nested (spans : Spans lexemes range) (ordered : InOrder lexemes) (part : own <:+: lexemes)
    (innerSpans : Spans own inner) : range.start ≤ inner.start ∧ inner.stop ≤ range.stop := by
  obtain ⟨first, firstMember, begins⟩ := innerSpans.first_mem
  obtain ⟨last, lastMember, ends⟩ := innerSpans.last_mem
  have := (spans.encloses ordered (part.subset firstMember)).1
  have := (spans.encloses ordered (part.subset lastMember)).2
  omega

end Spans

/-- Nodes that were read one after the other do not overlap. -/
theorem Arranged.apart (arranged : Arranged lexemes nodes) (ordered : InOrder lexemes) :
    nodes.Pairwise fun first later => first.range.stop ≤ later.range.start := by
  induction arranged with
  | nothing => exact .nil
  | gap _ ih => exact ih (ordered.run (List.suffix_cons _ _).isInfix)
  | read derived later ih =>
    refine .cons (fun other listed => ?_) (ih (ordered.run (List.suffix_append _ _).isInfix))
    obtain ⟨own, part, otherDerived⟩ := later.run listed
    obtain ⟨last, lastMember, ends⟩ := derived.spans.last_mem
    obtain ⟨first, firstMember, begins⟩ := otherDerived.spans.first_mem
    rw [ends, begins]
    exact (List.pairwise_append.mp ordered.apart).2.2 last lastMember first
      (part.subset firstMember)

end TypedForms
