import TypedForms.Proofs.TokenBoundaries

/-! Texts that are read as given tokens.  A token reads alone when its text,
with nothing after it, is read as that token and no other; every kind of token
that the printer writes does.  `Spells` then composes such texts with single
blanks and parentheses between them, which is all that printed texts consist of.
-/
namespace TypedForms.Token

/-! ## The longest proposal -/

theorem longest_none_iff {tokens : List Token} : longest? tokens = none ↔ tokens = [] := by
  cases tokens with
  | nil => simp [longest?]
  | cons head tokens =>
    simp only [longest?, reduceCtorEq, iff_false]
    split
    · simp
    · split <;> simp

/-- What is chosen is longer than all that stand before it and as long as all that come after. -/
theorem longest_splits (found : longest? tokens = some token) :
    ∃ before after, tokens = before ++ token :: after ∧
      (∀ other ∈ before, other.length < token.length) ∧
      ∀ other ∈ after, other.length ≤ token.length := by
  induction tokens generalizing token with
  | nil => cases found
  | cons head tokens ih =>
    simp only [longest?] at found
    split at found
    · rename_i nothing
      cases found
      obtain rfl := longest_none_iff.mp nothing
      exact ⟨[], [], rfl, by simp, by simp⟩
    · rename_i best later
      obtain ⟨before, after, rfl, shorter, bounded⟩ := ih later
      split at found
      · rename_i longer
        cases found
        exact ⟨head :: before, after, rfl, List.forall_mem_cons.mpr ⟨longer, shorter⟩, bounded⟩
      · rename_i notLonger
        cases found
        have least : best.length ≤ head.length := Nat.le_of_not_lt notLonger
        refine ⟨[], _, rfl, by simp, fun other member => ?_⟩
        rcases List.mem_append.mp member with member | member
        · exact Nat.le_of_lt (Nat.lt_of_lt_of_le (shorter other member) least)
        · rcases List.mem_cons.mp member with rfl | member
          · exact least
          · exact Nat.le_trans (bounded other member) least

theorem longest_mem (found : longest? tokens = some token) : token ∈ tokens := by
  obtain ⟨before, after, rfl, _⟩ := longest_splits found
  simp

/-! ## The texts of numerals and strings -/

/-- One or more digits. -/
def IsDigits (chars : List Char) : Prop :=
  chars ≠ [] ∧ ∀ c ∈ chars, c.isDigit = true

/-- A numeral without its sign: digits, with or without a point and more digits. -/
inductive IsUnsigned : List Char → Prop where
  | whole (digits : IsDigits chars) : IsUnsigned chars
  | fraction (digits : IsDigits chars) (places : IsDigits more) : IsUnsigned (chars ++ '.' :: more)

/-- The texts of numerals. -/
inductive IsNumeral : List Char → Prop where
  | positive (magnitude : IsUnsigned chars) : IsNumeral chars
  | negative (magnitude : IsUnsigned chars) : IsNumeral ('-' :: chars)

/-- What may stand between quotes: a backslash takes a character other than a newline with it,
and everything else but a quote stands for itself. -/
inductive IsQuotable : List Char → Prop where
  | done : IsQuotable []
  | escaped (ordinary : c ≠ '\n') (rest : IsQuotable chars) : IsQuotable ('\\' :: c :: chars)
  | plain (noQuote : c ≠ '"') (noEscape : c ≠ '\\') (rest : IsQuotable chars) :
      IsQuotable (c :: chars)

/-! ## What the kinds of tokens propose -/

private theorem unsigned_proposal (found : unsignedNumeral? input = some chars) :
    IsUnsigned chars ∧ chars <+: input := by
  have digits := takeWhile_inside Char.isDigit
  have parts : input.takeWhile Char.isDigit ++ input.dropWhile Char.isDigit = input :=
    List.takeWhile_append_dropWhile
  simp only [unsignedNumeral?] at found
  split at found
  · cases found
  · rename_i someDigit
    cases found
    have whole : IsDigits (input.takeWhile Char.isDigit) := ⟨by simpa using someDigit, digits _⟩
    have wholePrefix : input.takeWhile Char.isDigit <+: input := List.takeWhile_prefix _
    unfold fractionOf
    split
    · rename_i rest same
      simp only
      split
      · simpa using ⟨IsUnsigned.whole whole, wholePrefix⟩
      · rename_i somePlace
        refine ⟨.fraction whole ⟨by simpa using somePlace, digits _⟩, ?_⟩
        have places : '.' :: rest.takeWhile Char.isDigit <+: '.' :: rest :=
          List.cons_prefix_cons.mpr ⟨rfl, List.takeWhile_prefix _⟩
        rw [same] at parts
        conv => rhs; rw [← parts]
        exact (List.prefix_append_right_inj _).mpr places
    · simpa using ⟨IsUnsigned.whole whole, wholePrefix⟩

theorem unsigned_digit_first (unsigned : IsUnsigned chars) :
    ∃ c rest, chars = c :: rest ∧ c.isDigit = true := by
  cases unsigned with
  | whole digits =>
    obtain ⟨c, rest, rfl⟩ := List.exists_cons_of_ne_nil digits.1
    exact ⟨c, rest, rfl, digits.2 c (by simp)⟩
  | @fraction chars more digits places =>
    obtain ⟨c, rest, rfl⟩ := List.exists_cons_of_ne_nil digits.1
    exact ⟨c, rest ++ '.' :: more, rfl, digits.2 c (by simp)⟩

theorem numeral_proposal (found : numeral? input = some token) :
    ∃ chars, token = .numeral (String.ofList chars) ∧ IsNumeral chars ∧ chars <+: input := by
  unfold numeral? at found
  split at found
  · obtain ⟨chars, read, rfl⟩ := Option.map_eq_some_iff.mp found
    obtain ⟨unsigned, inside⟩ := unsigned_proposal read
    exact ⟨_, rfl, .negative unsigned, List.cons_prefix_cons.mpr ⟨rfl, inside⟩⟩
  · obtain ⟨chars, read, rfl⟩ := Option.map_eq_some_iff.mp found
    obtain ⟨unsigned, inside⟩ := unsigned_proposal read
    exact ⟨_, rfl, .positive unsigned, inside⟩

theorem name_proposal (found : name? input = some token) :
    ∃ c rest, token = .name (String.ofList (c :: rest.takeWhile isNameRest)) ∧
      isNameStart c = true ∧ input = c :: rest := by
  unfold name? at found
  split at found
  · split at found
    · rename_i c rest start
      exact ⟨c, rest, (Option.some.inj found).symm, start, rfl⟩
    · cases found
  · cases found

theorem quoted_content_reads (quotable : IsQuotable chars) (rest : List Char) :
    quotedContent? (chars ++ '"' :: rest) = some chars := by
  induction quotable with
  | done => simp [quotedContent?]
  | escaped ordinary _ ih => simp [quotedContent?, ordinary, ih]
  | plain noQuote noEscape _ ih => simp [quotedContent?, noEscape, ih]

/-- The content of a string is followed by its quote, and nothing before that quote could have
ended the string. -/
theorem quoted_content_ends (found : quotedContent? input = some content) :
    IsQuotable content ∧ content ++ ['"'] <+: input := by
  induction input using quotedContent?.induct generalizing content with
  | case1 => simp [quotedContent?] at found
  | case2 rest =>
    simp only [quotedContent?, Option.some.injEq] at found
    subst found
    exact ⟨.done, rest, rfl⟩
  | case3 => simp [quotedContent?] at found
  | case4 c rest ordinary ih =>
    simp only [quotedContent?, ordinary, ↓reduceIte, Option.map_eq_some_iff] at found
    obtain ⟨inner, read, rfl⟩ := found
    obtain ⟨quotable, inside⟩ := ih read
    exact ⟨.escaped ordinary quotable, by simpa [List.cons_prefix_cons] using inside⟩
  | case5 => simp_all [quotedContent?]
  | case6 c rest noQuote _ ordinary ih =>
    simp only [quotedContent?, ordinary, ↓reduceIte, Option.map_eq_some_iff] at found
    obtain ⟨inner, read, rfl⟩ := found
    obtain ⟨quotable, inside⟩ := ih read
    exact ⟨.plain (by simpa using noQuote) ordinary quotable,
      by simpa [List.cons_prefix_cons] using inside⟩

theorem quoted_proposal (found : quoted? input = some token) :
    ∃ rest content, token = .quoted (String.ofList content) ∧ input = '"' :: rest ∧
      quotedContent? rest = some content := by
  unfold quoted? at found
  split at found
  · obtain ⟨content, read, rfl⟩ := Option.map_eq_some_iff.mp found
    exact ⟨_, content, rfl, rfl, read⟩
  · cases found

theorem proposal_cases (proposed : token ∈ proposals input) :
    numeral? input = some token ∨ (∃ word, token = .keyword word ∧ word.text.toList <+: input) ∨
      name? input = some token ∨ quoted? input = some token := by
  simp only [proposals, List.mem_append, Option.mem_toList, keywords, List.mem_map,
    List.mem_filter, List.isPrefixOf_iff_prefix] at proposed
  rcases proposed with ((numeral | ⟨word, ⟨_, inside⟩, rfl⟩) | name) | quoted
  · exact .inl numeral
  · exact .inr (.inl ⟨word, rfl, inside⟩)
  · exact .inr (.inr (.inl name))
  · exact .inr (.inr (.inr quoted))

/-- Every proposal is a beginning of the input and not empty. -/
theorem proposal_begins (proposed : token ∈ proposals input) :
    token.text.toList ≠ [] ∧ token.text.toList <+: input := by
  rcases proposal_cases proposed with numeral | ⟨word, rfl, inside⟩ | name | quoted
  · obtain ⟨chars, rfl, isNumeral, inside⟩ := numeral_proposal numeral
    refine ⟨?_, by simpa [text] using inside⟩
    cases isNumeral with
    | positive magnitude =>
      obtain ⟨c, rest, rfl, _⟩ := unsigned_digit_first magnitude
      simp [text]
    | negative magnitude => simp [text]
  · exact ⟨by cases word <;> decide, inside⟩
  · obtain ⟨c, rest, rfl, _, rfl⟩ := name_proposal name
    simpa [text, List.cons_prefix_cons] using List.takeWhile_prefix _
  · obtain ⟨rest, content, rfl, rfl, read⟩ := quoted_proposal quoted
    simpa [text, List.cons_prefix_cons] using (quoted_content_ends read).2

theorem first_begins (found : first? input = some token) :
    token.text.toList ≠ [] ∧ token.text.toList <+: input :=
  proposal_begins (longest_mem found)

/-- No token begins with a blank. -/
theorem blank_begins_no_token (blank : Text.isBlank c = true) : first? (c :: rest) = none := by
  have delimiter := delimiter_of_blank blank
  have noDigit := delimiter_not_digit delimiter
  have noStart := delimiter_not_start delimiter
  have noMinus : c ≠ '-' := by rintro rfl; exact absurd blank (by decide)
  have noQuote : c ≠ '"' := by rintro rfl; exact absurd blank (by decide)
  have noKeyword : keywords (c :: rest) = [] := by
    have unblank : ∀ word : Keyword, (word.text.toList.all fun d => !Text.isBlank d) = true := by
      intro word
      cases word <;> decide
    simp only [keywords, List.map_eq_nil_iff, List.filter_eq_nil_iff, List.isPrefixOf_iff_prefix]
    intro word _ inside
    cases chars : word.text.toList with
    | nil => cases word <;> simp_all [Keyword.text]
    | cons d more =>
      rw [chars, List.cons_prefix_cons] at inside
      have := List.all_eq_true.mp (unblank word) d (by simp [chars])
      simp [inside.1, blank] at this
  simp [first?, proposals, numeral?, noMinus, unsignedNumeral?, noDigit, noKeyword, name?, noStart,
    quoted?, noQuote, longest?]

/-! ## Tokens that read alone -/

/-- The text of the token, with nothing after it, is read as this token. -/
def ReadsAlone (token : Token) : Prop :=
  first? token.text.toList = some token

instance (token : Token) : Decidable token.ReadsAlone :=
  inferInstanceAs (Decidable (_ = _))

theorem keyword_reads_alone (word : Keyword) : ReadsAlone (.keyword word) := by
  have all : ∀ word ∈ Keyword.all, ReadsAlone (.keyword word) := by decide +kernel
  exact all word (by cases word <;> decide)

/-- An opening parenthesis is a token of its own whatever follows it. -/
theorem first_left_paren (rest : List Char) :
    first? ('(' :: rest) = some (.keyword .leftParen) := by
  have noStart : isNameStart '(' = false := by decide
  have noDigit : '('.isDigit = false := by decide
  have onlyParen : keywords ('(' :: rest) = [.keyword .leftParen] := by
    simp [keywords, Keyword.all, Keyword.text, List.isPrefixOf]
  simp [first?, proposals, numeral?, unsignedNumeral?, noDigit, onlyParen, name?, noStart, quoted?,
    longest?]

/-- Only a string begins with a quote. -/
theorem first_at_quote (rest : List Char) :
    first? ('"' :: rest) =
      (quotedContent? rest).map fun chars => .quoted (String.ofList chars) := by
  have noStart : isNameStart '"' = false := by decide
  have noDigit : '"'.isDigit = false := by decide
  have noKeyword : keywords ('"' :: rest) = [] := by
    simp [keywords, Keyword.all, Keyword.text, List.isPrefixOf]
  cases read : quotedContent? rest <;>
    simp [first?, proposals, numeral?, unsignedNumeral?, noDigit, noKeyword, name?, noStart,
      quoted?, read, longest?]

theorem quoted_reads_alone_iff : ReadsAlone (.quoted content) ↔ IsQuotable content.toList := by
  simp only [ReadsAlone, text, String.toList_append, String.reduceToList, List.cons_append,
    List.nil_append, first_at_quote, Option.map_eq_some_iff, quoted.injEq]
  constructor
  · rintro ⟨chars, read, rfl⟩
    simpa using (quoted_content_ends read).1
  · intro quotable
    exact ⟨content.toList, quoted_content_reads quotable [], by simp⟩

/-- A string ends at its own quote, whatever follows it. -/
theorem quoted_reads_on (alone : ReadsAlone token) (begins : token.text.toList = '"' :: more)
    (rest : List Char) : first? (token.text.toList ++ rest) = some token := by
  have found := alone
  rw [ReadsAlone, begins, first_at_quote] at found
  obtain ⟨content, read, rfl⟩ := Option.map_eq_some_iff.mp found
  have quotable := quoted_reads_alone_iff.mp alone
  simp only [String.toList_ofList] at quotable
  simp [text, first_at_quote, quoted_content_reads quotable]

/-- A token that reads alone is read in front of every delimiter too. -/
theorem reads_before_delimiter (alone : ReadsAlone token) (ended : Delimited rest) :
    first? (token.text.toList ++ rest) = some token := by
  obtain ⟨c, more, chars⟩ := List.exists_cons_of_ne_nil (first_begins alone).1
  by_cases quote : c = '"'
  · subst quote
    exact quoted_reads_on alone chars rest
  · rw [chars, first_delimited ended quote, ← chars]
    exact alone

/-! ## Scanning what has been spelled -/

namespace Scan

/-- Puts several tokens in front of what follows them. -/
def prepend (lexemes : List Lexeme) (later : Scan) : Scan :=
  { later with lexemes := lexemes ++ later.lexemes }

@[simp] theorem prepend_cons (lexeme : Lexeme) (lexemes : List Lexeme) (later : Scan) :
    prepend (lexeme :: lexemes) later = cons lexeme (prepend lexemes later) := rfl

theorem prepend_append (first second : List Lexeme) (later : Scan) :
    prepend (first ++ second) later = prepend first (prepend second later) := by
  simp [prepend]

end Scan

theorem byteLength_append (left right : List Char) :
    Text.byteLength (left ++ right) = Text.byteLength left + Text.byteLength right := by
  induction left with
  | nil => simp [Text.byteLength]
  | cons c left ih => simp only [List.cons_append, Text.byteLength, ih, Nat.add_assoc]

theorem byteLength_pos (nonempty : chars ≠ []) : 0 < Text.byteLength chars := by
  cases chars with
  | nil => exact absurd rfl nonempty
  | cons c chars => exact Nat.add_pos_left c.utf8Size_pos _

theorem scan_skips (taken rest : List Char) (offset : Nat) :
    scanFrom offset taken.length (taken ++ rest) =
      scanFrom (offset + Text.byteLength taken) 0 rest := by
  induction taken generalizing offset with
  | nil => simp [Text.byteLength]
  | cons c taken ih =>
    simp only [List.length_cons, List.cons_append, scanFrom, ih, Text.byteLength, Nat.add_assoc]

/-- The token at the beginning of the input is noted, and scanning goes on after its text. -/
theorem scan_token (found : first? (token.text.toList ++ rest) = some token) (offset : Nat) :
    scanFrom offset 0 (token.text.toList ++ rest) =
      .cons ⟨token, offset⟩ (scanFrom (offset + Text.byteLength token.text.toList) 0 rest) := by
  have size : token.length = token.text.toList.length := rfl
  obtain ⟨c, more, chars⟩ := List.exists_cons_of_ne_nil (first_begins found).1
  rw [chars] at found size ⊢
  have unblank : Text.isBlank c = false := by
    cases blank : Text.isBlank c with
    | false => rfl
    | true => simp [blank_begins_no_token blank] at found
  have skipped : token.length - 1 = more.length := by simp [size]
  rw [List.cons_append] at found ⊢
  simp only [scanFrom, unblank, found, skipped, scan_skips, Text.byteLength, Nat.add_assoc]
  rfl

/-- Before a delimiter the text is read as exactly these tokens, wherever it stands. -/
def Spells (chars : List Char) (tokens : List Token) : Prop :=
  ∀ offset rest, Delimited rest → ∃ lexemes, lexemes.map Lexeme.token = tokens ∧
    scanFrom offset 0 (chars ++ rest) =
      .prepend lexemes (scanFrom (offset + Text.byteLength chars) 0 rest)

theorem spells_nothing : Spells [] [] :=
  fun _ _ _ => ⟨[], rfl, rfl⟩

theorem spells_token (alone : ReadsAlone token) : Spells token.text.toList [token] := by
  intro offset rest ended
  refine ⟨[⟨token, offset⟩], rfl, ?_⟩
  rw [scan_token (reads_before_delimiter alone ended)]
  rfl

/-- The second text begins with a delimiter unless it is empty, so the first one ends there. -/
theorem spells_append (left : Spells chars tokens) (right : Spells more others)
    (ended : Delimited more) : Spells (chars ++ more) (tokens ++ others) := by
  intro offset rest restEnded
  obtain ⟨first, firstTokens, firstScan⟩ :=
    left offset (more ++ rest) (delimited_append ended restEnded)
  obtain ⟨second, secondTokens, secondScan⟩ :=
    right (offset + Text.byteLength chars) rest restEnded
  refine ⟨first ++ second, by simp [firstTokens, secondTokens], ?_⟩
  rw [List.append_assoc, firstScan, secondScan, Scan.prepend_append, byteLength_append,
    Nat.add_assoc]

theorem spells_open (inner : Spells chars tokens) :
    Spells ('(' :: chars) (.keyword .leftParen :: tokens) := by
  intro offset rest ended
  obtain ⟨lexemes, same, scanned⟩ :=
    inner (offset + Text.byteLength ['(']) rest ended
  refine ⟨⟨.keyword .leftParen, offset⟩ :: lexemes, by simp [same], ?_⟩
  have opened := @scan_token (chars ++ rest) (.keyword .leftParen) (first_left_paren _) offset
  simp only [text, Keyword.text, String.reduceToList, List.cons_append, List.nil_append] at opened
  rw [List.cons_append, opened, scanned]
  simp [Text.byteLength, Nat.add_assoc]

theorem spells_blank (blank : Text.isBlank c = true) (inner : Spells chars tokens) :
    Spells (c :: chars) tokens := by
  intro offset rest ended
  obtain ⟨lexemes, same, scanned⟩ := inner (offset + c.utf8Size) rest ended
  refine ⟨lexemes, same, ?_⟩
  simp only [List.cons_append, scanFrom, blank, ↓reduceIte, scanned, Text.byteLength, Nat.add_assoc]

theorem spells_word (word : Keyword) : Spells word.text.toList [.keyword word] :=
  spells_token (keyword_reads_alone word)

/-- Two texts with a space between them. -/
theorem spells_spaced (left : Spells chars tokens) (right : Spells more others) :
    Spells (chars ++ ' ' :: more) (tokens ++ others) :=
  spells_append left (spells_blank (by decide) right) (by simp [Delimited]; decide)

/-- A text in parentheses. -/
theorem spells_parens (inner : Spells chars tokens) :
    Spells ('(' :: (chars ++ [')'])) (.keyword .leftParen :: (tokens ++ [.keyword .rightParen])) :=
  spells_open (spells_append inner (spells_word .rightParen) (by simp [Delimited]; decide))

/-- A text that spells tokens to its end is scanned into them. -/
theorem scan_spelled (spelled : Spells source.toList tokens) :
    (scan source).invalid = none ∧ (scan source).lexemes.map Lexeme.token = tokens := by
  obtain ⟨lexemes, same, scanned⟩ := spelled 0 [] (by simp [Delimited])
  rw [List.append_nil] at scanned
  simp [scan, scanned, scanFrom, Scan.prepend, same]

end TypedForms.Token
