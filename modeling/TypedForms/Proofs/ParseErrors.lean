import TypedForms.Proofs.ViablePrefixes

/-! Parse errors name the first place at which a text cannot be completed.

A text that is not accepted has a place up to which its tokens are viable and
beyond which they are not: no token begins there, or the token that does cannot
follow, or the text is over.  The parser reports that place and says which of the
three it is.
-/
namespace TypedForms

open TypedForms.Parser

/-- The end of the last token, zero when there is none. -/
def lastStop (lexemes : List Lexeme) : Nat :=
  (lexemes.getLast?.map Lexeme.stop).getD 0

theorem lastStop_eq (scan : Token.Scan) : scan.lastStop = lastStop scan.lexemes := by
  unfold Token.Scan.lastStop lastStop
  cases scan.lexemes.getLast? <;> rfl

/-- Where a text can no longer be completed, and how that is reported. -/
inductive FirstFailure (start : StartSymbol) (source : String) :
    ParseError → Diagnostic → Prop where
  /-- The text before the offset splits into viable tokens, and no token begins there. -/
  | invalidToken (here : source.toList = before ++ rest)
      (splits : Token.Splits rest 0 before lexemes) (viable : start.Viable lexemes)
      (stuck : Token.Stuck rest) (place : offset = Text.byteLength before) :
      FirstFailure start source (.invalidToken offset) ⟨"invalid token", ⟨offset, offset + 1⟩⟩
  /-- The text before the token splits into viable tokens, which the token makes unviable. -/
  | unexpected (here : source.toList = before ++ (token.text.toList ++ rest))
      (splits : Token.Splits (token.text.toList ++ rest) 0 before lexemes)
      (longest : Token.LongestMatch (token.text.toList ++ rest) token)
      (viable : start.Viable lexemes) (refused : ¬ start.Viable (lexemes ++ [⟨token, first⟩]))
      (begins : first = Text.byteLength before)
      (ends : last = Text.byteLength (before ++ token.text.toList)) :
      FirstFailure start source (.unexpected ⟨token, first⟩)
        ⟨"unrecognized token '" ++ token.text ++ "'", ⟨first, last⟩⟩
  /-- The whole text splits into viable tokens, which are not derived as any tree. -/
  | unfinished (splits : Token.SplitsInto source lexemes) (viable : start.Viable lexemes)
      (underivable : ¬ ∃ tree, start.Derives lexemes tree) (place : offset = lastStop lexemes) :
      FirstFailure start source (.unfinished offset) ⟨"unrecognized eof", ⟨offset, offset + 1⟩⟩

namespace Parser

/-- What is refused is the first token that cannot be taken. -/
theorem takeAll_refuses_iff : takeAll stack lexemes = .error lexeme ↔
    ∃ before after reached, lexemes = before ++ lexeme :: after ∧
      takeAll stack before = .ok reached ∧ take reached lexeme = none := by
  constructor
  · intro refused
    induction lexemes generalizing stack with
    | nil => cases refused
    | cons head lexemes ih =>
      simp only [takeAll] at refused
      split at refused
      · rename_i next taken
        obtain ⟨before, after, reached, rfl, takenBefore, stops⟩ := ih refused
        exact ⟨head :: before, after, reached, rfl, by simp [takeAll, taken, takenBefore], stops⟩
      · rename_i stops
        cases refused
        exact ⟨[], lexemes, stack, rfl, rfl, stops⟩
  · rintro ⟨before, after, reached, rfl, taken, stops⟩
    rw [leads_of_taken taken]
    simp [takeAll, stops]

/-- Reading fails in one of three ways. -/
theorem read_error_iff {start : OpenForm} {finished? : List OpenForm → Option α} :
    read start finished? source = .error error ↔
      (∃ lexeme, error = .unexpected lexeme ∧
        takeAll [start] (Token.scan source).lexemes = .error lexeme) ∨
      (∃ reached offset, error = .invalidToken offset ∧
        takeAll [start] (Token.scan source).lexemes = .ok reached ∧
        (Token.scan source).invalid = some offset) ∨
      (∃ reached, error = .unfinished (Token.scan source).lastStop ∧
        takeAll [start] (Token.scan source).lexemes = .ok reached ∧
        (Token.scan source).invalid = none ∧ finished? reached = none) := by
  unfold read
  cases taken : takeAll [start] (Token.scan source).lexemes with
  | error lexeme => simp [taken, eq_comm]
  | ok reached =>
    cases invalid : (Token.scan source).invalid with
    | some offset => simp [taken, invalid, eq_comm]
    | none =>
      cases finished : finished? reached with
      | none => simp [taken, invalid, finished, eq_comm]
      | some value => simp [taken, invalid, finished]

end Parser

/-- Tokens that can be taken are viable, and a token that then cannot be taken ends that. -/
theorem refused_iff {start : StartSymbol}
    (taken : takeAll [start.form] lexemes = .ok reached) :
    ¬ start.Viable (lexemes ++ [lexeme]) ↔ take reached lexeme = none := by
  rw [StartSymbol.viable_iff, leads_of_taken taken]
  cases next : take reached lexeme <;> simp [takeAll, next]

theorem underivable_iff {start : StartSymbol}
    (taken : takeAll [start.form] lexemes = .ok reached) :
    (¬ ∃ tree, start.Derives lexemes tree) ↔ start.finished? reached = none := by
  simp only [← StartSymbol.taken_iff, taken, Except.ok.injEq, exists_eq_left',
    ← Option.isSome_iff_exists, Option.isSome_iff_ne_none, not_not]

/-- What is reported is a first failure.  An unexpected token is reported even where scanning stops
at a later place. -/
theorem failure_of_error {start : StartSymbol} (failed : start.parse source = .error error) :
    FirstFailure start source error error.diagnostic := by
  rw [StartSymbol.parse_eq_read, read_error_iff] at failed
  obtain ⟨chars, rest, here, splits, ended⟩ := Token.splits_of_scan 0 source.toList
  rw [← Token.scan] at splits ended
  obtain ⟨⟨token, first⟩, rfl, refused⟩ | ⟨reached, offset, rfl, taken, invalid⟩ |
    ⟨reached, rfl, taken, valid, unfinished⟩ := failed
  · obtain ⟨before, after, reached, lexemes, taken, stops⟩ := takeAll_refuses_iff.mp refused
    rw [lexemes] at splits
    obtain ⟨left, right, rfl, begins, longest, splitsLeft⟩ := Token.splits_at splits
    rw [Nat.zero_add] at begins
    refine .unexpected (by simp [here]) splitsLeft longest
      (StartSymbol.viable_iff.mpr ⟨reached, taken⟩) ((refused_iff taken).mpr stops) begins ?_
    rw [Token.byteLength_append, ← begins]
    rfl
  · obtain ⟨_, valid⟩ | ⟨stuck, place⟩ := ended
    · rw [invalid] at valid
      cases valid
    · rw [invalid, Option.some.injEq, Nat.zero_add] at place
      exact .invalidToken here splits (StartSymbol.viable_iff.mpr ⟨reached, taken⟩) stuck place
  · have splitsInto : Token.SplitsInto source (Token.scan source).lexemes :=
      Token.splitsInto_iff.mpr (by rw [← valid])
    rw [lastStop_eq]
    exact .unfinished splitsInto (StartSymbol.viable_iff.mpr ⟨reached, taken⟩)
      ((underivable_iff taken).mpr unfinished) rfl

/-- A first failure is reported. -/
theorem error_of_failure {start : StartSymbol} (failure : FirstFailure start source error report) :
    start.parse source = .error error ∧ error.diagnostic = report := by
  rw [StartSymbol.parse_eq_read, read_error_iff]
  cases failure with
  | invalidToken here splits viable stuck place =>
    obtain ⟨reached, taken⟩ := StartSymbol.viable_iff.mp viable
    rw [Token.scan_beginning here splits, Token.scan_of_stuck stuck, ← place]
    refine ⟨.inr (.inl ⟨reached, _, rfl, ?_, rfl⟩), rfl⟩
    simpa [Token.Scan.prepend] using taken
  | unexpected here splits longest viable refused begins ends =>
    obtain ⟨reached, taken⟩ := StartSymbol.viable_iff.mp viable
    have found := Token.first_iff_longest_match.mpr longest
    rw [Token.scan_beginning here splits, Token.scan_token found, ← begins]
    refine ⟨.inl ⟨_, rfl, takeAll_refuses_iff.mpr ⟨_, _, reached, rfl, taken, ?_⟩⟩, ?_⟩
    · exact (refused_iff taken).mp refused
    · rw [ends, Token.byteLength_append, ← begins]
      rfl
  | unfinished splits viable underivable place =>
    obtain ⟨reached, taken⟩ := StartSymbol.viable_iff.mp viable
    rw [Token.splitsInto_iff.mp splits]
    rw [place, lastStop_eq]
    exact ⟨.inr (.inr ⟨reached, rfl, taken, rfl, (underivable_iff taken).mp underivable⟩), rfl⟩

/-- Parsing fails, and reports what it does, exactly at the first place at which the text cannot be
completed. -/
theorem parse_failures_exact (start : StartSymbol) (source : String) (error : ParseError)
    (report : Diagnostic) :
    start.parse source = .error error ∧ error.diagnostic = report ↔
      FirstFailure start source error report := by
  constructor
  · rintro ⟨failed, rfl⟩
    exact failure_of_error failed
  · exact error_of_failure

/-- One text for each of the three ways to fail.  The blank at the end of the last one does not
count. -/
theorem short_texts_fail :
    FirstFailure .expr "(if #" (.invalidToken 4) ⟨"invalid token", ⟨4, 5⟩⟩ ∧
    FirstFailure .ascription "(a * -> b)" (.unexpected ⟨.keyword .arrow, 5⟩)
      ⟨"unrecognized token '->'", ⟨5, 7⟩⟩ ∧
    FirstFailure .program "(f 1 " (.unfinished 4) ⟨"unrecognized eof", ⟨4, 5⟩⟩ := by
  refine ⟨?_, ?_, ?_⟩
  · exact (parse_failures_exact .expr "(if #" _ _).mp ⟨rfl, by decide⟩
  · exact (parse_failures_exact .ascription "(a * -> b)" _ _).mp ⟨rfl, by decide⟩
  · exact (parse_failures_exact .program "(f 1 " _ _).mp ⟨rfl, by decide⟩

end TypedForms
