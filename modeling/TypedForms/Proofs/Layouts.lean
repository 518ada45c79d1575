import TypedForms.Proofs.GrammarPlaces
import TypedForms.Proofs.ParseErrors
import TypedForms.Proofs.UnplacedChecks

/-! The layout of a text does not matter.

Two layouts of the same tokens differ in the blanks only: between two tokens there
are blanks in both or in neither, before the first and after the last there may be
any.  Where a token is followed by another one without a blank between them, both
texts go on alike up to the next blank, and no token but a string reaches over a
blank.  So both texts split into the same tokens, are read as the same tree up to
places or refused with the same message, and are checked alike.
-/
namespace TypedForms

/-- A run of blanks, which may be empty. -/
def Text.Blank (run : List Char) : Prop :=
  ∀ c ∈ run, Text.isBlank c = true

/-- Two texts that begin with the first of the tokens and are written with the same tokens.  Between
two tokens both have blanks or none has; after the last one there may be any. -/
inductive Respaced : List Token → List Char → List Char → Prop where
  | nothing : Respaced [] [] []
  | last (blank : Text.Blank gap) (otherBlank : Text.Blank otherGap) :
      Respaced [token] (token.text.toList ++ gap) (token.text.toList ++ otherGap)
  | next (blank : Text.Blank gap) (otherBlank : Text.Blank otherGap)
      (both : gap = [] ↔ otherGap = []) (later : Respaced (following :: tokens) chars others) :
      Respaced (token :: following :: tokens) (token.text.toList ++ (gap ++ chars))
        (token.text.toList ++ (otherGap ++ others))

/-- Two layouts of the same tokens. -/
def Relaid (tokens : List Token) (source other : String) : Prop :=
  ∃ lead chars otherLead others, source.toList = lead ++ chars ∧
    other.toList = otherLead ++ others ∧ Text.Blank lead ∧ Text.Blank otherLead ∧
    Respaced tokens chars others

/-! ## Both layouts split into the same tokens -/

namespace Token

theorem delimited_of_blank (blank : Text.Blank run) : Delimited run :=
  fun c head => delimiter_of_blank (blank c (List.mem_of_mem_head? head))

theorem delimited_of_gap (blank : Text.Blank gap) (nonempty : gap ≠ []) (rest : List Char) :
    Delimited (gap ++ rest) := by
  obtain ⟨c, gap, rfl⟩ := List.exists_cons_of_ne_nil nonempty
  exact fun d head => delimited_of_blank blank d head

/-- Up to a delimiter in both, the two texts are the same. -/
theorem respaced_common (respaced : Respaced tokens chars others) :
    ∃ run rest otherRest, chars = run ++ rest ∧ others = run ++ otherRest ∧ Delimited rest ∧
      Delimited otherRest := by
  induction respaced with
  | nothing => exact ⟨[], [], [], rfl, rfl, nofun, nofun⟩
  | @last _ _ token blank otherBlank =>
    exact ⟨token.text.toList, _, _, rfl, rfl, delimited_of_blank blank,
      delimited_of_blank otherBlank⟩
  | @next gap otherGap _ _ _ _ token blank otherBlank both _ ih =>
    by_cases empty : gap = []
    · obtain ⟨run, rest, otherRest, rfl, rfl, ended, otherEnded⟩ := ih
      rw [empty, both.mp empty]
      exact ⟨token.text.toList ++ run, rest, otherRest, by simp, by simp, ended, otherEnded⟩
    · exact ⟨token.text.toList, _, _, rfl, rfl, delimited_of_gap blank empty _,
        delimited_of_gap otherBlank (mt both.mpr empty) _⟩

/-- What is read depends on the text up to the next delimiter only. -/
theorem first_of_common (found : first? (token.text.toList ++ (run ++ rest)) = some token)
    (ended : Delimited rest) (otherEnded : Delimited otherRest) :
    first? (token.text.toList ++ (run ++ otherRest)) = some token := by
  obtain ⟨c, more, chars⟩ := List.exists_cons_of_ne_nil (first_begins found).1
  by_cases quote : c = '"'
  · subst quote
    exact quoted_reads_on (first_reads_alone found) chars _
  · rw [← List.append_assoc, chars, List.cons_append] at found ⊢
    rw [first_delimited ended quote] at found
    rw [first_delimited otherEnded quote]
    exact found

namespace Splits

theorem reads_alone (splits : Splits rest offset chars lexemes) :
    ∀ lexeme ∈ lexemes, lexeme.token.ReadsAlone := by
  induction splits with
  | nothing => exact nofun
  | blank _ _ ih => exact ih
  | token longest _ ih =>
    exact List.forall_mem_cons.mpr ⟨first_reads_alone (first_iff_longest_match.mpr longest), ih⟩

theorem blanks (blank : Text.Blank gap)
    (later : Splits rest (offset + Text.byteLength gap) chars lexemes) :
    Splits rest offset (gap ++ chars) lexemes := by
  induction gap generalizing offset with
  | nil => exact later
  | cons c gap ih =>
    obtain ⟨first, more⟩ := List.forall_mem_cons.mp blank
    rw [Text.byteLength, ← Nat.add_assoc] at later
    exact .blank first (ih more later)

/-- Blanks belong to no token, because no token begins with one. -/
theorem skip (blank : Text.Blank gap) (splits : Splits rest offset (gap ++ chars) lexemes) :
    ∃ place, Splits rest place chars lexemes := by
  induction gap generalizing offset with
  | nil => exact ⟨offset, splits⟩
  | cons c gap ih =>
    obtain ⟨first, more⟩ := List.forall_mem_cons.mp blank
    generalize whole : (c :: gap) ++ chars = input at splits
    cases splits with
    | nothing => cases whole
    | blank _ later =>
      obtain ⟨_, rfl⟩ := List.cons.inj whole
      exact ih more later
    | token longest _ =>
      have found := first_iff_longest_match.mpr longest
      rw [← List.append_assoc, ← whole, List.cons_append, List.cons_append,
        blank_begins_no_token first] at found
      cases found

/-- A text that begins as its first token does is split after that token. -/
theorem uncons
    (splits : Splits rest offset (lexeme.token.text.toList ++ chars) (lexeme :: lexemes)) :
    first? (lexeme.token.text.toList ++ (chars ++ rest)) = some lexeme.token ∧
      ∃ place, Splits rest place chars lexemes := by
  have alone := splits.reads_alone lexeme List.mem_cons_self
  generalize whole : lexeme.token.text.toList ++ chars = input at splits
  cases splits with
  | blank blank _ =>
    obtain ⟨c, more, begins⟩ := List.exists_cons_of_ne_nil (first_begins alone).1
    rw [begins] at whole
    obtain ⟨rfl, _⟩ := List.cons.inj whole
    rw [ReadsAlone, begins, blank_begins_no_token blank] at alone
    cases alone
  | token longest later =>
    rw [List.append_cancel_left whole]
    exact ⟨first_iff_longest_match.mpr longest, _, later⟩

end Splits

/-- A text in another layout splits into the same tokens.  A blank ends every token; without one,
what follows is the same up to the next blank. -/
theorem respaced_splits (respaced : Respaced tokens chars others)
    (splits : Splits [] offset chars lexemes) (same : lexemes.map Lexeme.token = tokens)
    (place : Nat) :
    ∃ relaid, Splits [] place others relaid ∧ relaid.map Lexeme.token = tokens := by
  induction respaced generalizing offset lexemes place with
  | nothing => exact ⟨[], .nothing, rfl⟩
  | @last _ otherGap token _ otherBlank =>
    obtain ⟨lexeme, _, rfl, rfl, _⟩ := List.map_eq_cons_iff.mp same
    have found := reads_before_delimiter (splits.reads_alone lexeme List.mem_cons_self)
      (delimited_of_blank otherBlank)
    have trailing : Splits [] (place + Text.byteLength lexeme.token.text.toList)
        (otherGap ++ []) [] :=
      .blanks otherBlank .nothing
    rw [List.append_nil] at trailing
    refine ⟨[⟨lexeme.token, place⟩], .token (first_iff_longest_match.mp ?_) trailing, rfl⟩
    rwa [List.append_nil]
  | @next gap otherGap _ _ _ others token blank otherBlank both later ih =>
    obtain ⟨lexeme, rest, rfl, rfl, sameRest⟩ := List.map_eq_cons_iff.mp same
    obtain ⟨found, _, splitsRest⟩ := splits.uncons
    obtain ⟨_, splitsRest⟩ := splitsRest.skip blank
    obtain ⟨relaid, relaidSplits, sameTokens⟩ := ih splitsRest sameRest
      (place + Text.byteLength lexeme.token.text.toList + Text.byteLength otherGap)
    have again : first? (lexeme.token.text.toList ++ (otherGap ++ others)) = some lexeme.token := by
      by_cases empty : gap = []
      · obtain ⟨run, rest, otherRest, rfl, rfl, ended, otherEnded⟩ := respaced_common later
        rw [empty, List.append_nil, List.nil_append] at found
        rw [both.mp empty, List.nil_append]
        exact first_of_common found ended otherEnded
      · exact reads_before_delimiter (splits.reads_alone lexeme List.mem_cons_self)
          (delimited_of_gap otherBlank (mt both.mpr empty) others)
    refine ⟨⟨lexeme.token, place⟩ :: relaid, .token (first_iff_longest_match.mp ?_)
      (.blanks otherBlank relaidSplits), by rw [List.map_cons, sameTokens]⟩
    rwa [List.append_nil]

theorem relaid_splits (splits : SplitsInto source lexemes)
    (relaid : Relaid (lexemes.map Lexeme.token) source other) :
    ∃ others, SplitsInto other others ∧ SameTokens others lexemes := by
  obtain ⟨lead, chars, otherLead, otherChars, whole, otherWhole, blank, otherBlank, respaced⟩ :=
    relaid
  rw [SplitsInto, whole] at splits
  obtain ⟨_, splits⟩ := splits.skip blank
  obtain ⟨others, otherSplits, same⟩ :=
    respaced_splits respaced splits rfl (Text.byteLength otherLead)
  refine ⟨others, ?_, same⟩
  rw [SplitsInto, otherWhole]
  exact .blanks otherBlank (by rwa [Nat.zero_add])

end Token

/-! ## Both layouts are read alike -/

namespace StartSymbol

/-- The tree without its places. -/
def unplaced : (start : StartSymbol) → start.Tree → start.Tree
  | .ascription, (tree : Ascription) => tree.unplaced
  | .expr, (tree : Expr) => tree.unplaced
  | .program, (tree : Program) => tree.map Expr.unplaced

/-- What a text is read as, without places, or the message that refuses it. -/
def reading (start : StartSymbol) (source : String) : Except String start.Tree :=
  ((start.parse source).map start.unplaced).mapError ParseError.message

theorem derives_same_tokens {start : StartSymbol} {tree : start.Tree}
    (derived : start.Derives lexemes tree) (same : SameTokens others lexemes) :
    ∃ other, start.Derives others other ∧ start.unplaced other = start.unplaced tree := by
  cases start with
  | ascription => exact (derives_anywhere derived).ascription same
  | expr => exact (derives_anywhere derived).expr same
  | program =>
    obtain ⟨nonempty, derived⟩ := derived
    obtain ⟨other, otherDerived, bare⟩ := (derives_anywhere derived).items unplaced_expr same
    exact ⟨other, ⟨Expr.ne_nil_of_unplaced bare nonempty, otherDerived⟩, bare⟩

theorem viable_same_tokens {start : StartSymbol} (viable : start.Viable lexemes)
    (same : SameTokens others lexemes) : start.Viable others := by
  obtain ⟨more, valid, tree, derived⟩ := viable
  have sameLonger : SameTokens (others ++ more) (lexemes ++ more) := by
    rw [SameTokens, List.map_append, List.map_append, same]
  obtain ⟨other, otherDerived, _⟩ := derives_same_tokens derived sameLonger
  exact ⟨more, valid, other, otherDerived⟩

end StartSymbol

open TypedForms.Parser

theorem ParseError.message_of_token {left right : Lexeme} (same : left.token = right.token) :
    (unexpected left).message = (unexpected right).message := by
  obtain ⟨token, _⟩ := left
  obtain ⟨_, _⟩ := right
  obtain rfl : token = _ := same
  rfl

/-- The same tokens are refused with the same message. -/
theorem StartSymbol.refused_same_tokens {start : StartSymbol}
    (splits : Token.SplitsInto source lexemes) (otherSplits : Token.SplitsInto other others)
    (same : SameTokens others lexemes) (failed : start.parse source = .error error) :
    ∃ again, start.parse other = .error again ∧ again.message = error.message := by
  have scanned := Token.splitsInto_iff.mp splits
  have otherScanned := Token.splitsInto_iff.mp otherSplits
  rw [parse_eq_read, read_error_iff] at failed
  obtain ⟨lexeme, rfl, refused⟩ | ⟨_, _, _, _, invalid⟩ | ⟨reached, rfl, taken, _, unfinished⟩ :=
    failed
  · rw [scanned] at refused
    obtain ⟨before, after, reached, rfl, taken, stops⟩ := takeAll_refuses_iff.mp refused
    obtain ⟨otherBefore, _, rfl, sameBefore, sameAfter⟩ := same_tokens_append same
    obtain ⟨otherLexeme, otherAfter, rfl, token, _⟩ := same_tokens_cons sameAfter
    obtain ⟨otherReached, otherTaken⟩ := viable_iff.mp
      (viable_same_tokens (viable_iff.mpr ⟨reached, taken⟩) sameBefore)
    have sameRefused : SameTokens (before ++ [lexeme]) (otherBefore ++ [otherLexeme]) := by
      rw [SameTokens, List.map_append, List.map_append, sameBefore, List.map_singleton,
        List.map_singleton, token]
    have otherStops : take otherReached otherLexeme = none := by
      apply (refused_iff otherTaken).mp
      intro viable
      exact (refused_iff taken).mpr stops (viable_same_tokens viable sameRefused)
    have otherRefused := takeAll_refuses_iff.mpr
      ⟨otherBefore, otherAfter, otherReached, rfl, otherTaken, otherStops⟩
    refine ⟨.unexpected otherLexeme, ?_, ?_⟩
    · rw [parse_eq_read, read_error_iff, otherScanned]
      exact .inl ⟨otherLexeme, rfl, otherRefused⟩
    · exact ParseError.message_of_token token
  · rw [scanned] at invalid
    cases invalid
  · rw [scanned] at taken
    obtain ⟨otherReached, otherTaken⟩ := viable_iff.mp
      (viable_same_tokens (viable_iff.mpr ⟨reached, taken⟩) same)
    have otherUnfinished : start.finished? otherReached = none := by
      apply (underivable_iff otherTaken).mp
      rintro ⟨tree, derived⟩
      obtain ⟨back, backDerived, _⟩ := derives_same_tokens derived same.symm
      exact (underivable_iff taken).mpr unfinished ⟨back, backDerived⟩
    refine ⟨.unfinished (Token.scan other).lastStop, ?_, rfl⟩
    rw [parse_eq_read, read_error_iff, otherScanned]
    exact .inr (.inr ⟨otherReached, rfl, otherTaken, rfl, otherUnfinished⟩)

/-- Texts of the same tokens are read as the same tree up to places, or refused alike. -/
theorem StartSymbol.reading_same_tokens (start : StartSymbol)
    (splits : Token.SplitsInto source lexemes) (otherSplits : Token.SplitsInto other others)
    (same : SameTokens others lexemes) : start.reading other = start.reading source := by
  unfold reading
  cases parsed : start.parse source with
  | ok tree =>
    obtain ⟨found, foundSplits, derived⟩ := parse_iff.mp parsed
    have scanned := Token.splitsInto_iff.mp splits
    rw [Token.splitsInto_iff.mp foundSplits] at scanned
    cases scanned
    obtain ⟨otherTree, otherDerived, bare⟩ := derives_same_tokens derived same
    rw [parse_iff.mpr ⟨others, otherSplits, otherDerived⟩]
    exact congrArg Except.ok bare
  | error error =>
    obtain ⟨again, failed, message⟩ := refused_same_tokens splits otherSplits same parsed
    rw [failed]
    exact congrArg Except.error message

/-! ## Both layouts are checked alike -/

/-- Checking a text goes by what the text is read as, without places. -/
theorem typeOfSource_eq_reading (source : String) :
    (typeOfSource source).mapError Diagnostic.message =
      (StartSymbol.program.reading source).bind fun program =>
        ((Program.check program).finding.mapError TypeError.Cause.message).map Ty.text := by
  unfold typeOfSource StartSymbol.reading
  simp only [StartSymbol.parse]
  cases Program.parse source with
  | error error => rfl
  | ok program =>
    change _ = ((Program.check (program.map Expr.unplaced)).finding.mapError _).map _
    rw [← Program.check_unplaced, Outcome.finding]
    cases found : program.check.result with
    | error error =>
      simp only [found]
      rfl
    | ok type =>
      simp only [found]
      rfl

/-- Two layouts of the same tokens have the same type or are refused with the same message, and
what they are read as is the same up to places. -/
theorem layout_does_not_matter {source other : String} {lexemes : List Lexeme}
    (splits : Token.SplitsInto source lexemes)
    (relaid : Relaid (lexemes.map Lexeme.token) source other) :
    (typeOfSource other).mapError Diagnostic.message =
      (typeOfSource source).mapError Diagnostic.message ∧
    ∀ start : StartSymbol, start.reading other = start.reading source := by
  obtain ⟨others, otherSplits, same⟩ := Token.relaid_splits splits relaid
  have readings : ∀ start : StartSymbol, start.reading other = start.reading source :=
    fun start => start.reading_same_tokens splits otherSplits same
  refine ⟨?_, readings⟩
  rw [typeOfSource_eq_reading, typeOfSource_eq_reading, readings]

/-- Blanks of several kinds around a string, which keeps its own blank, and no blank before it. -/
theorem spaced_conditional_relaid :
    let source := "(if #t\"a b\" 1)"
    let other := "\n(if\u00a0\t#t\"a b\"\u3000 1)\r"
    let lexemes : List Lexeme := [⟨.keyword .leftParen, 0⟩, ⟨.keyword .ifWord, 1⟩,
      ⟨.keyword .yes, 4⟩, ⟨.quoted "a b", 6⟩, ⟨.numeral "1", 12⟩, ⟨.keyword .rightParen, 13⟩]
    Token.SplitsInto source lexemes ∧ Relaid (lexemes.map Lexeme.token) source other ∧
      typeOfSource source = .ok "(union number string)" ∧
      (typeOfSource other).mapError Diagnostic.message = .ok "(union number string)" ∧
      StartSymbol.program.reading other = StartSymbol.program.reading source := by
  intro source other lexemes
  have splits : Token.SplitsInto source lexemes := Token.splitsInto_iff.mpr (by decide +kernel)
  have blank : Text.Blank [] := List.all_eq_true.mp rfl
  have gap : Text.Blank [' '] := List.all_eq_true.mp rfl
  have noBreak : Text.Blank ['\u00a0', '\t'] := List.all_eq_true.mp rfl
  have wide : Text.Blank ['\u3000', ' '] := List.all_eq_true.mp rfl
  have lead : Text.Blank ['\n'] := List.all_eq_true.mp rfl
  have ending : Text.Blank ['\r'] := List.all_eq_true.mp rfl
  have respaced : Respaced [.keyword .leftParen, .keyword .ifWord, .keyword .yes, .quoted "a b",
      .numeral "1", .keyword .rightParen] _ _ :=
    .next blank blank Iff.rfl (.next gap noBreak (by simp) (.next blank blank Iff.rfl
      (.next gap wide (by simp) (.next blank blank Iff.rfl (.last blank ending)))))
  have relaid : Relaid (lexemes.map Lexeme.token) source other :=
    ⟨[], _, ['\n'], _, by decide +kernel, by decide +kernel, blank, lead, respaced⟩
  have typed : typeOfSource source = .ok "(union number string)" := by decide +kernel
  obtain ⟨checked, readings⟩ := layout_does_not_matter splits relaid
  rw [typed] at checked
  exact ⟨splits, relaid, typed, checked, readings .program⟩

end TypedForms
