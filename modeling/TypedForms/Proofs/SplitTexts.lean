import TypedForms.Proofs.Terminals

/-! Splitting a text into blanks and tokens.

`Splits` says that a text, with a given rest after it, consists of blanks and of
tokens that are longest matches where they stand.  The rest is part of the
statement, because a match is longest only with respect to all that follows.
Scanning splits a text up to its end or up to a place where no terminal matches,
and there is no other way to split it.
-/
namespace TypedForms.Token

/-- The text before the rest, which begins at the offset, consists of blanks and of the tokens. -/
inductive Splits (rest : List Char) : Nat → List Char → List Lexeme → Prop where
  | nothing : Splits rest offset [] []
  | blank (blank : Text.isBlank c = true)
      (later : Splits rest (offset + c.utf8Size) chars lexemes) :
      Splits rest offset (c :: chars) lexemes
  | token (longest : LongestMatch (token.text.toList ++ (chars ++ rest)) token)
      (later : Splits rest (offset + Text.byteLength token.text.toList) chars lexemes) :
      Splits rest offset (token.text.toList ++ chars) (⟨token, offset⟩ :: lexemes)

/-- The whole text consists of blanks and of the tokens. -/
def SplitsInto (source : String) (lexemes : List Lexeme) : Prop :=
  Splits [] 0 source.toList lexemes

/-- The text goes on with a character that is no blank, and no terminal matches there. -/
structure Stuck (rest : List Char) : Prop where
  unblank : ∃ c ∈ rest.head?, Text.isBlank c = false
  noMatch : NoMatch rest

/-- What has been split is scanned into the same tokens, and scanning goes on with the rest. -/
theorem scan_of_splits (splits : Splits rest offset chars lexemes) :
    scanFrom offset 0 (chars ++ rest) =
      .prepend lexemes (scanFrom (offset + Text.byteLength chars) 0 rest) := by
  induction splits with
  | nothing => rfl
  | @blank c offset chars lexemes blank _ ih =>
    simp only [List.cons_append, scanFrom, blank, ↓reduceIte, ih, Text.byteLength, Nat.add_assoc]
  | @token chars token offset lexemes longest _ ih =>
    rw [List.append_assoc, scan_token (first_iff_longest_match.mpr longest), ih, byteLength_append,
      Nat.add_assoc]
    rfl

/-- The same of a beginning of a whole text. -/
theorem scan_beginning (here : source.toList = chars ++ rest)
    (splits : Splits rest 0 chars lexemes) :
    scan source = .prepend lexemes (scanFrom (Text.byteLength chars) 0 rest) := by
  rw [scan, here, scan_of_splits splits, Nat.zero_add]

theorem scan_of_stuck (stuck : Stuck rest) (offset : Nat) :
    scanFrom offset 0 rest = ⟨[], some offset⟩ := by
  cases rest with
  | nil => simpa using stuck.unblank
  | cons c rest =>
    have unblank : Text.isBlank c = false := by simpa using stuck.unblank
    simp [scanFrom, unblank, first_none_iff_no_match.mpr stuck.noMatch]

/-- Scanning splits the text up to its end, or up to an offset at which it is stuck.  A token has at
least one character, so each one leaves a shorter text to scan. -/
theorem splits_of_scan (offset : Nat) (input : List Char) :
    ∃ chars rest, input = chars ++ rest ∧
      Splits rest offset chars (scanFrom offset 0 input).lexemes ∧
      ((rest = [] ∧ (scanFrom offset 0 input).invalid = none) ∨
        (Stuck rest ∧
          (scanFrom offset 0 input).invalid = some (offset + Text.byteLength chars))) := by
  match input with
  | [] => exact ⟨[], [], rfl, .nothing, .inl ⟨rfl, rfl⟩⟩
  | c :: more =>
    cases blank : Text.isBlank c with
    | true =>
      have skipped : scanFrom offset 0 (c :: more) = scanFrom (offset + c.utf8Size) 0 more := by
        simp [scanFrom, blank]
      obtain ⟨chars, rest, rfl, splits, ended⟩ := splits_of_scan (offset + c.utf8Size) more
      rw [skipped]
      refine ⟨c :: chars, rest, rfl, .blank blank splits, ?_⟩
      simpa only [Text.byteLength, Nat.add_assoc] using ended
    | false =>
      cases found : first? (c :: more) with
      | none =>
        have stopped : scanFrom offset 0 (c :: more) = ⟨[], some offset⟩ := by
          simp [scanFrom, blank, found]
        rw [stopped]
        exact ⟨[], c :: more, rfl, .nothing,
          .inr ⟨⟨⟨c, rfl, blank⟩, first_none_iff_no_match.mp found⟩, rfl⟩⟩
      | some token =>
        obtain ⟨nonempty, tail, same⟩ := first_begins found
        rw [← same] at found ⊢
        have shorter : tail.length < more.length + 1 := by
          have positive := List.length_pos_iff.mpr nonempty
          rw [← List.length_cons, ← same, List.length_append]
          omega
        rw [scan_token found]
        obtain ⟨chars, rest, rfl, splits, ended⟩ :=
          splits_of_scan (offset + Text.byteLength token.text.toList) tail
        refine ⟨token.text.toList ++ chars, rest, by simp,
          .token (first_iff_longest_match.mp found) splits, ?_⟩
        simpa only [Scan.cons, byteLength_append, Nat.add_assoc] using ended
termination_by input.length

/-- A text splits completely in one way only, the one that scanning finds. -/
theorem splitsInto_iff : SplitsInto source lexemes ↔ scan source = ⟨lexemes, none⟩ := by
  constructor
  · intro splits
    have scanned := scan_of_splits splits
    rw [List.append_nil] at scanned
    rw [scan, scanned]
    simp [Scan.prepend, scanFrom]
  · intro scanned
    obtain ⟨chars, rest, same, splits, ended⟩ := splits_of_scan 0 source.toList
    rw [← scan, scanned] at splits ended
    obtain ⟨rfl, _⟩ | ⟨_, impossible⟩ := ended
    · rw [List.append_nil] at same
      rw [SplitsInto, same]
      exact splits
    · cases impossible

/-- Each token of a split text is the longest match at its place, and the text before it is split
into the tokens before it. -/
theorem splits_at (splits : Splits rest offset chars (before ++ lexeme :: after)) :
    ∃ left right, chars = left ++ (lexeme.token.text.toList ++ right) ∧
      lexeme.start = offset + Text.byteLength left ∧
      LongestMatch (lexeme.token.text.toList ++ (right ++ rest)) lexeme.token ∧
      Splits (lexeme.token.text.toList ++ (right ++ rest)) offset left before := by
  generalize same : before ++ lexeme :: after = lexemes at splits
  induction splits generalizing before with
  | nothing => simp at same
  | @blank c offset chars lexemes blank _ ih =>
    obtain ⟨left, right, rfl, start, longest, splits⟩ := ih same
    refine ⟨c :: left, right, rfl, ?_, longest, .blank blank splits⟩
    rw [start, Text.byteLength, Nat.add_assoc]
  | @token chars token offset lexemes longest _ ih =>
    cases before with
    | nil =>
      cases same
      exact ⟨[], chars, rfl, rfl, longest, .nothing⟩
    | cons head before =>
      obtain ⟨rfl, sameLater⟩ := List.cons.inj same
      obtain ⟨left, right, rfl, start, longestLater, splits⟩ := ih sameLater
      refine ⟨token.text.toList ++ left, right, by simp, ?_, longestLater, .token ?_ splits⟩
      · rw [start, byteLength_append, Nat.add_assoc]
      · simpa using longest

end TypedForms.Token
