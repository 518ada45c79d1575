import TypedForms.Proofs.GrammarLanguage
import TypedForms.Proofs.MovedPlaces
import TypedForms.Proofs.NodeTokens

/-! Every node delimits its own text.

A run of the tokens of a text is cut out of it together with its blanks.  The
slice splits into the same tokens, since a match that is longest with more text
after it is longest without, and the offsets count from the beginning of the
slice.  A node was read from such a run, so its slice reads as the node again.
-/
namespace TypedForms

namespace Token

/-! ## Slices of a split text -/

/-- With less text after it there is less to match. -/
theorem LongestMatch.cut (longest : LongestMatch (input ++ rest) token)
    (inside : token.text.toList <+: input) : LongestMatch input token where
  valid := longest.valid
  inside := inside
  longest := fun terminal text matched begins =>
    longest.longest terminal text matched (begins.trans (List.prefix_append input rest))
  preferred := longest.preferred

namespace Splits

/-- The rest of the text can be cut off. -/
theorem cut (splits : Splits rest offset chars lexemes) : Splits [] offset chars lexemes := by
  induction splits with
  | nothing => exact .nothing
  | blank blank _ ih => exact .blank blank ih
  | token longest _ ih =>
    rw [← List.append_assoc] at longest
    refine .token ?_ ih
    rw [List.append_nil]
    exact longest.cut (List.prefix_append _ _)

/-- Offsets can be counted from a later place. -/
theorem moved {base : Nat} (splits : Splits rest (base + offset) chars lexemes) :
    Splits rest offset chars (lexemes.map (Lexeme.moved (· - base))) := by
  generalize place : base + offset = begins at splits
  induction splits generalizing offset with
  | nothing => exact .nothing
  | blank blank _ ih => exact .blank blank (ih (by omega))
  | @token chars token begins lexemes longest _ ih =>
    have start : begins - base = offset := by omega
    rw [List.map_cons, Lexeme.moved, start]
    exact .token longest (ih (by omega))

theorem start_le (splits : Splits rest offset chars lexemes) :
    ∀ lexeme ∈ lexemes, offset ≤ lexeme.start := by
  induction splits with
  | nothing => exact nofun
  | blank _ _ ih =>
    intro lexeme member
    have := ih lexeme member
    omega
  | token _ _ ih =>
    refine List.forall_mem_cons.mpr ⟨Nat.le_refl _, fun lexeme member => ?_⟩
    have := ih lexeme member
    omega

/-- The tokens of a text stand one after the other. -/
theorem in_order (splits : Splits rest offset chars lexemes) : InOrder lexemes := by
  induction splits with
  | nothing => exact ⟨nofun, .nil⟩
  | blank _ _ ih => exact ih
  | @token chars token offset lexemes longest later ih =>
    have nonempty := (first_begins (first_iff_longest_match.mpr longest)).1
    have positive := byteLength_pos nonempty
    refine ⟨List.forall_mem_cons.mpr ⟨Nat.lt_add_of_pos_right positive, ih.proper⟩, ?_⟩
    exact .cons (fun lexeme member => later.start_le lexeme member) ih.apart

/-- The text before a token can be cut off. -/
theorem fromToken (splits : Splits rest offset chars (before ++ lexeme :: after)) :
    ∃ left right, chars = left ++ right ∧ offset + Text.byteLength left = lexeme.start ∧
      Splits rest lexeme.start right (lexeme :: after) := by
  generalize same : before ++ lexeme :: after = lexemes at splits
  induction splits generalizing before with
  | nothing => simp at same
  | @blank c offset chars lexemes _ _ ih =>
    obtain ⟨left, right, rfl, begins, splits⟩ := ih same
    exact ⟨c :: left, right, rfl, by rw [← begins, Text.byteLength, Nat.add_assoc], splits⟩
  | @token chars token offset lexemes longest later ih =>
    cases before with
    | nil =>
      cases same
      exact ⟨[], _, rfl, rfl, .token longest later⟩
    | cons head before =>
      obtain ⟨left, right, rfl, begins, splits⟩ := ih (List.cons.inj same).2
      refine ⟨token.text.toList ++ left, right, by simp, ?_, splits⟩
      rw [← begins, byteLength_append, Nat.add_assoc]

/-- The text after a token can be cut off. -/
theorem untilToken (splits : Splits rest offset chars (before ++ lexeme :: after)) :
    ∃ left right, chars = left ++ right ∧ offset + Text.byteLength left = lexeme.stop ∧
      Splits (right ++ rest) offset left (before ++ [lexeme]) := by
  generalize same : before ++ lexeme :: after = lexemes at splits
  induction splits generalizing before with
  | nothing => simp at same
  | @blank c offset chars lexemes blank _ ih =>
    obtain ⟨left, right, rfl, ends, splits⟩ := ih same
    refine ⟨c :: left, right, rfl, ?_, .blank blank splits⟩
    rw [← ends, Text.byteLength, Nat.add_assoc]
  | @token chars token offset lexemes longest later ih =>
    cases before with
    | nil =>
      cases same
      refine ⟨token.text.toList, chars, rfl, rfl, ?_⟩
      have alone : Splits (chars ++ rest) offset (token.text.toList ++ []) [⟨token, offset⟩] :=
        .token longest .nothing
      rwa [List.append_nil] at alone
    | cons head before =>
      obtain ⟨rfl, sameLater⟩ := List.cons.inj same
      obtain ⟨left, right, rfl, ends, splits⟩ := ih sameLater
      refine ⟨token.text.toList ++ left, right, by simp, ?_, .token ?_ splits⟩
      · rw [← ends, byteLength_append, Nat.add_assoc]
      · rwa [List.append_assoc] at longest

end Splits

/-- A run of the tokens of a text, cut out of the text, splits into the same tokens, counted from
the beginning of the run.  The text is cut before the first token of the run and after the last. -/
theorem SplitsInto.slice (splits : SplitsInto source lexemes) (part : own <:+: lexemes)
    (spans : Spans own range) :
    ∃ before slice after, source.toList = before ++ (slice ++ after) ∧
      Text.byteLength before = range.start ∧ Text.byteLength (before ++ slice) = range.stop ∧
      SplitsInto (String.ofList slice) (own.map (Lexeme.moved (· - range.start))) := by
  obtain ⟨left, right, rfl⟩ := part
  obtain ⟨first, isFirst, begins⟩ := spans.first
  obtain ⟨last, isLast, ends⟩ := spans.last
  obtain ⟨later, rfl⟩ := List.head?_eq_some_iff.mp isFirst
  obtain ⟨earlier, same⟩ := List.getLast?_eq_some_iff.mp isLast
  rw [SplitsInto, List.append_assoc, List.cons_append] at splits
  obtain ⟨before, remainder, whole, start, splits⟩ := splits.fromToken
  rw [← List.cons_append, same, List.append_assoc, List.singleton_append] at splits
  obtain ⟨slice, after, rfl, stop, splits⟩ := splits.untilToken
  rw [Nat.zero_add] at start
  refine ⟨before, slice, after, whole, start.trans begins.symm, ?_, ?_⟩
  · rw [byteLength_append, start, stop, ends]
  · rw [SplitsInto, String.toList_ofList, begins, same]
    exact splits.cut.moved

end Token

/-! ## Nodes and their slices -/

/-- A token at or after the place that offsets are counted from keeps its length. -/
theorem Lexeme.kept_from {base : Nat} {lexeme : Lexeme} (after : base ≤ lexeme.start) :
    lexeme.Kept (· - base) := by
  simp only [Kept, moved, stop]
  omega

namespace Node

/-- The node with all its places moved. -/
def moved (move : Nat → Nat) : Node → Node
  | .expr value => .expr (value.moved move)
  | .ascription value => .ascription (value.moved move)

/-- The whole text is read as the node, as an expression or as an ascription. -/
def ReadFrom (text : String) : Node → Prop
  | .expr value => Expr.parse text = .ok value
  | .ascription value => Ascription.parse text = .ok value

/-- The range of the node delimits the text of the node. -/
structure Delimits (source : String) (node : Node) : Prop where
  proper : node.range.start < node.range.stop
  /-- Both ends lie between characters, and what is between the ends is read as the node. -/
  sliced : ∃ before slice after, source.toList = before ++ (slice ++ after) ∧
    Text.byteLength before = node.range.start ∧
    Text.byteLength (before ++ slice) = node.range.stop ∧
    (node.moved (· - node.range.start)).ReadFrom (String.ofList slice)
  nested : ∀ child ∈ node.children,
    node.range.start ≤ child.range.start ∧ child.range.stop ≤ node.range.stop
  apart : node.children.Pairwise fun first later => first.range.stop ≤ later.range.start

theorem readFrom_of_splits {node : Node} (splits : Token.SplitsInto text lexemes)
    (derived : node.DerivedFrom lexemes) : node.ReadFrom text := by
  cases node with
  | expr value =>
    have parsed : StartSymbol.expr.parse text = .ok value :=
      StartSymbol.parse_iff.mpr ⟨lexemes, splits, derived⟩
    exact parsed
  | ascription value =>
    have parsed : StartSymbol.ascription.parse text = .ok value :=
      StartSymbol.parse_iff.mpr ⟨lexemes, splits, derived⟩
    exact parsed

theorem DerivedFrom.moved {node : Node} {move : Nat → Nat} (derived : node.DerivedFrom lexemes)
    (kept : ∀ lexeme ∈ lexemes, lexeme.Kept move) :
    (node.moved move).DerivedFrom (lexemes.map (Lexeme.moved move)) := by
  cases node with
  | expr value => exact derives_moved derived kept
  | ascription value => exact derives_moved derived kept

/-- A node that was read from a run of the tokens of a text delimits its own text. -/
theorem DerivedFrom.delimits {node : Node} (derived : node.DerivedFrom own)
    (splits : Token.SplitsInto source lexemes) (part : own <:+: lexemes) :
    node.Delimits source := by
  have ordered : InOrder own := (Token.Splits.in_order splits).run part
  have spans := derived.spans
  refine ⟨spans.proper ordered, ?_, fun child listed => ?_, derived.children.apart ordered⟩
  · obtain ⟨before, slice, after, whole, begins, ends, sliced⟩ := splits.slice part spans
    refine ⟨before, slice, after, whole, begins, ends, readFrom_of_splits sliced ?_⟩
    exact derived.moved fun lexeme member => Lexeme.kept_from (spans.encloses ordered member).1
  · obtain ⟨inner, within, childDerived⟩ := derived.children.run listed
    exact spans.nested ordered within childDerived.spans

end Node

namespace StartSymbol

/-- The nodes of a tree that lie in no other node. -/
def roots : (start : StartSymbol) → start.Tree → List Node
  | .ascription, (tree : Ascription) => [.ascription tree]
  | .expr, (tree : Expr) => [.expr tree]
  | .program, (tree : Program) => tree.map .expr

theorem roots_arranged {start : StartSymbol} {tree : start.Tree}
    (derived : start.Derives lexemes tree) : Arranged lexemes (start.roots tree) := by
  cases start with
  | ascription => exact .ascription derived
  | expr => exact .expr derived
  | program => exact exprs_arranged derived.2

end StartSymbol

/-- In a text that has been read, the range of every node delimits the node's own text: it is not
empty, its ends lie between characters, the children stand inside it in order and apart, and the
slice alone is read as the node with places that count from the slice. -/
theorem node_ranges_delimit {start : StartSymbol} {source : String} {tree : start.Tree}
    (parsed : start.parse source = .ok tree) {root node : Node} (listed : root ∈ start.roots tree)
    (inside : node.Inside root) : node.Delimits source := by
  obtain ⟨lexemes, splits, derived⟩ := StartSymbol.parse_iff.mp parsed
  obtain ⟨outer, part, rootDerived⟩ := (StartSymbol.roots_arranged derived).run listed
  obtain ⟨own, within, nodeDerived⟩ := inside.run rootDerived
  exact nodeDerived.delimits splits (within.trans part)

/-- A type inside a lambda, after a string with a character of two bytes. -/
theorem ascribed_result_delimits :
    let source := "(f \"é\" (lambda () : T x))"
    let result : Ascription := .named ⟨21, 22⟩ "T"
    let function : Expr := .lambda ⟨8, 25⟩ [] result [.identifier ⟨23, 24⟩ "x"]
    let tree : Expr := .application ⟨0, 26⟩ (.identifier ⟨1, 2⟩ "f")
      [.string ⟨3, 7⟩ "é", function]
    StartSymbol.expr.parse source = .ok tree ∧ (Node.ascription result).Inside (.expr tree) ∧
      (Node.ascription result).Delimits source := by
  intro source result function tree
  have parsed : StartSymbol.expr.parse source = .ok tree := by
    simp only [source, tree, function, result]
    rfl
  have inside : (Node.ascription result).Inside (.expr tree) := by
    apply Node.Inside.deeper (show Node.expr function ∈ (Node.expr tree).children by
      simp [tree, Node.children])
    apply Node.Inside.deeper (show Node.ascription result ∈ (Node.expr function).children by
      simp [function, Node.children])
    exact .here
  exact ⟨parsed, inside, node_ranges_delimit parsed List.mem_cons_self inside⟩

end TypedForms
