import TypedForms.Proofs.ErrorPlaces
import TypedForms.Proofs.ParseErrors
import TypedForms.Proofs.SourceLines
import TypedForms.Proofs.TextParts

/-! The ranges that diagnostics have.

An error is reported at a token, at a node, at a character that begins no token or
at the end of the text.  Nodes begin and end with tokens, and the last character
of a token is no blank.  So every range but that at the end of the text begins
between two characters and ends in or right after a character that is no line
break.
-/
namespace TypedForms

open Token (byteLength_append)
open Text (byteLength isBreak)

/-- The range begins between characters and ends in or right after a character that is no break. -/
def Range.Plain (source : String) (range : Range) : Prop :=
  ∃ before middle c after, source.toList = before ++ (middle ++ c :: after) ∧
    byteLength before = range.start ∧ isBreak c = false ∧
    byteLength (before ++ middle) < range.stop ∧
    range.stop ≤ byteLength (before ++ middle) + c.utf8Size

/-- The range of the error about the end of the text: one byte after the last token, or at the
beginning when there is none. -/
def Range.AtEnd (source : String) (range : Range) : Prop :=
  ∃ before after, source.toList = before ++ after ∧ Text.EndsPlain before ∧
    range = .single (byteLength before)

theorem Text.plain_of_unblank (unblank : isBlank c = false) : isBreak c = false := by
  apply Bool.eq_false_iff.mpr
  intro broken
  have cases : c = '\r' ∨ c = '\n' := by simpa [isBreak] using broken
  rcases cases with rfl | rfl
  · exact absurd unblank (by decide)
  · exact absurd unblank (by decide)

namespace Token

/-- Text that ends with a token ends in no break. -/
theorem Valid.ends_plain {token : Token} (valid : token.Valid) (before : List Char) :
    Text.EndsPlain (before ++ token.text.toList) := by
  obtain ⟨earlier, c, same, unblank⟩ := valid.ends_unblank
  intro d last
  rw [same, ← List.append_assoc, List.getLast?_concat] at last
  cases last
  exact Text.plain_of_unblank unblank

/-- A range up to the end of a token. -/
private theorem plain_until_token {source : String} {range : Range} {token : Token}
    (valid : token.Valid) (whole : source.toList = left ++ (token.text.toList ++ right))
    (inside : before <+: left) (begins : byteLength before = range.start)
    (ends : range.stop = byteLength left + byteLength token.text.toList) : range.Plain source := by
  obtain ⟨earlier, c, same, unblank⟩ := valid.ends_unblank
  obtain ⟨between, rfl⟩ := inside
  refine ⟨before, between ++ earlier, c, right, by simp [whole, same], begins,
    Text.plain_of_unblank unblank, ?_⟩
  have size : byteLength token.text.toList = byteLength earlier + c.utf8Size := by
    rw [same, byteLength_append]
    rfl
  have := c.utf8Size_pos
  rw [byteLength_append] at ends
  rw [byteLength_append, byteLength_append]
  omega

/-- Where a token of a text stands. -/
private theorem SplitsInto.at_lexeme (splits : SplitsInto source lexemes)
    (member : lexeme ∈ lexemes) :
    ∃ left right, source.toList = left ++ (lexeme.token.text.toList ++ right) ∧
      byteLength left = lexeme.start ∧ lexeme.token.Valid := by
  obtain ⟨before, after, rfl⟩ := List.append_of_mem member
  obtain ⟨left, right, cut, start, longest, _⟩ := splits_at splits
  rw [Nat.zero_add] at start
  exact ⟨left, right, cut, start.symm, longest.valid⟩

/-- What is spanned by tokens of a text. -/
theorem SplitsInto.plain {range : Range} (splits : SplitsInto source lexemes)
    (part : own <:+: lexemes) (spans : Spans own range) : range.Plain source := by
  obtain ⟨first, firstMember, begins⟩ := spans.first_mem
  obtain ⟨last, lastMember, ends⟩ := spans.last_mem
  have ordered : InOrder own := (Splits.in_order splits).run part
  have bound := (spans.encloses ordered lastMember).1
  obtain ⟨firstLeft, firstRight, firstCut, firstStart, _⟩ :=
    SplitsInto.at_lexeme splits (part.subset firstMember)
  obtain ⟨lastLeft, lastRight, lastCut, lastStart, valid⟩ :=
    SplitsInto.at_lexeme splits (part.subset lastMember)
  have inside : firstLeft <+: lastLeft :=
    Text.prefix_of_byteLength_le ⟨_, firstCut.symm⟩ ⟨_, lastCut.symm⟩ (by omega)
  refine plain_until_token valid lastCut inside (by omega) ?_
  rw [ends, lastStart, Lexeme.stop]

/-- The text up to the end of its last token. -/
theorem SplitsInto.ends_plain (splits : SplitsInto source lexemes) :
    ∃ before after, source.toList = before ++ after ∧ Text.EndsPlain before ∧
      byteLength before = lastStop lexemes := by
  cases ended : lexemes.getLast? with
  | none =>
    refine ⟨[], source.toList, rfl, nofun, ?_⟩
    simp [lastStop, ended, byteLength]
  | some lexeme =>
    obtain ⟨left, right, cut, start, valid⟩ :=
      SplitsInto.at_lexeme splits (List.mem_of_getLast? ended)
    refine ⟨left ++ lexeme.token.text.toList, right, by simp [cut], valid.ends_plain left, ?_⟩
    rw [byteLength_append, start]
    simp [lastStop, ended, Lexeme.stop]

end Token

/-! ## Errors of the parser -/

theorem FirstFailure.placed {start : StartSymbol}
    (failure : FirstFailure start source error report) :
    report.range.Plain source ∨
      report.message = "unrecognized eof" ∧ report.range.AtEnd source := by
  cases failure with
  | @invalidToken before rest lexemes offset here splits viable stuck place =>
    left
    obtain ⟨c, head, unblank⟩ := stuck.unblank
    obtain ⟨more, rfl⟩ := List.head?_eq_some_iff.mp head
    refine ⟨before, [], c, more, here, place.symm, Text.plain_of_unblank unblank, ?_⟩
    have := c.utf8Size_pos
    simp only [List.append_nil, place]
    omega
  | unexpected here splits longest viable refused begins ends =>
    left
    rw [byteLength_append] at ends
    exact Token.plain_until_token longest.valid here List.prefix_rfl begins.symm ends
  | unfinished splits viable underivable place =>
    right
    obtain ⟨before, after, cut, plain, stop⟩ := Token.SplitsInto.ends_plain splits
    exact ⟨rfl, before, after, cut, plain, by rw [stop, ← place]; rfl⟩

/-! ## Errors of the checker -/

/-- The nodes of an expression lie inside it. -/
theorem Expr.inside_of_mem {node expr : Expr} (member : node ∈ expr.nodes) :
    (Node.expr node).Inside (.expr expr) := by
  induction expr with
  | number | boolean | string | identifier | primitive =>
    rw [List.mem_singleton.mp member]
    exact .here
  | conditional range test thenBranch elseBranch testInside thenInside elseInside =>
    simp only [nodes, List.mem_cons, List.mem_append] at member
    rcases member with rfl | (member | member) | member
    · exact .here
    · exact .deeper (by simp [Node.children]) (testInside member)
    · exact .deeper (by simp [Node.children]) (thenInside member)
    · exact .deeper (by simp [Node.children]) (elseInside member)
  | lambda range params result body bodyInside =>
    simp only [nodes, nodesAll_eq_flatMap, List.mem_cons, List.mem_flatMap] at member
    rcases member with rfl | ⟨expr, listed, member⟩
    · exact .here
    · exact .deeper (by simp [Node.children, listed]) (bodyInside expr listed member)
  | application range operator operands operatorInside operandsInside =>
    simp only [nodes, nodesAll_eq_flatMap, List.mem_cons, List.mem_append,
      List.mem_flatMap] at member
    rcases member with rfl | member | ⟨expr, listed, member⟩
    · exact .here
    · exact .deeper (by simp [Node.children]) (operatorInside member)
    · exact .deeper (by simp [Node.children, listed]) (operandsInside expr listed member)
  | letForm range bindings body valuesInside bodyInside
  | letrecForm range bindings body valuesInside bodyInside =>
    simp only [nodes, nodesAll_eq_flatMap, bindingNodes_eq_flatMap, List.mem_cons, List.mem_append,
      List.mem_flatMap] at member
    rcases member with rfl | ⟨binding, listed, member⟩ | ⟨expr, listed, member⟩
    · exact .here
    · refine .deeper ?_ (valuesInside binding listed member)
      simp only [Node.children, List.mem_append, List.mem_flatMap]
      exact .inl ⟨binding, listed, by simp⟩
    · exact .deeper (by simp [Node.children, listed]) (bodyInside expr listed member)
  | define range var value valueInside =>
    simp only [nodes, List.mem_cons] at member
    rcases member with rfl | member
    · exact .here
    · exact .deeper (by simp [Node.children]) (valueInside member)

/-- The range of a node of a program that has been read. -/
theorem Program.node_plain {source : String} {program : Program}
    (parsed : Program.parse source = .ok program) (member : node ∈ Expr.nodesAll program) :
    node.range.Plain source := by
  rw [Expr.nodesAll_eq_flatMap] at member
  obtain ⟨root, listed, member⟩ := List.mem_flatMap.mp member
  have read : StartSymbol.program.parse source = .ok program := parsed
  obtain ⟨lexemes, splits, derived⟩ := StartSymbol.parse_iff.mp read
  have roots := StartSymbol.roots_arranged derived
  obtain ⟨outer, part, rootDerived⟩ := roots.run (List.mem_map_of_mem listed)
  obtain ⟨own, within, nodeDerived⟩ := (Expr.inside_of_mem member).run rootDerived
  exact splits.plain (within.trans part) nodeDerived.spans

/-- Every error about a source text has a plain range or is about the end of the text. -/
theorem typeOfSource_placed (failed : typeOfSource source = .error error) :
    error.range.Plain source ∨
      error.message = "unrecognized eof" ∧ error.range.AtEnd source := by
  unfold typeOfSource at failed
  split at failed
  · rename_i parseError parsed
    cases failed
    have read : StartSymbol.program.parse source = .error parseError := parsed
    exact (failure_of_error read).placed
  · rename_i program parsed
    split at failed
    · rename_i typeError checked
      cases failed
      left
      have filled := Program.filled_of_parse parsed
      obtain ⟨node, member, place⟩ := (Program.infer_reports filled.nonempty checked).placed
      have plain := Program.node_plain parsed member
      rwa [← place] at plain
    · cases failed

end TypedForms
