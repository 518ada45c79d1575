import Mathlib.Computability.Language
import TypedForms.Proofs.TokenSpelling

/-! The terminals of the grammar and the rule of the longest match.

Every kind of token has a language of texts, given here as a regular language
and apart from the lexer.  Of all beginnings of an input that are in some of the
languages the longest is read, and of the terminals that it belongs to the one
of the least rank.  The lexer's choice is the one that this rule makes.
-/
namespace TypedForms

open scoped Computability

/-- The terminals of the grammar: numerals, fixed words, names and quoted strings. -/
inductive Terminal where
  | numeral
  | keyword (word : Keyword)
  | name
  | quoted

namespace Terminal

/-- The texts of one character that satisfies the condition. -/
def oneOf (holds : Char → Bool) : Language Char :=
  {text | ∃ c, text = [c] ∧ holds c = true}

/-- One or more digits. -/
def digits : Language Char :=
  oneOf Char.isDigit * (oneOf Char.isDigit)∗

/-- What stands between quotes: characters other than the quote and the backslash, and pairs of a
backslash and a character other than a newline. -/
def content : Language Char :=
  (oneOf (fun c => c != '"' && c != '\\') + {['\\']} * oneOf (· != '\n'))∗

/-- The texts of a terminal. -/
def language : Terminal → Language Char
  | .numeral => (1 + {['-']}) * (digits * (1 + {['.']} * digits))
  | .keyword word => {word.text.toList}
  | .name => oneOf Token.isNameStart * (oneOf Token.isNameRest)∗
  | .quoted => {['"']} * (content * {['"']})

/-- Of terminals with the same text the one of the least rank is preferred. -/
def rank : Terminal → Nat
  | .numeral => 0
  | .keyword _ => 1
  | .name | .quoted => 2

/-! ## Members of the languages -/

theorem mem_kstar_oneOf {holds : Char → Bool} {text : List Char} :
    text ∈ (oneOf holds)∗ ↔ ∀ c ∈ text, holds c = true := by
  rw [Language.mem_kstar]
  constructor
  · rintro ⟨parts, rfl, inside⟩ c member
    obtain ⟨part, listed, member⟩ := List.mem_flatten.mp member
    obtain ⟨d, rfl, held⟩ := inside part listed
    obtain rfl := List.mem_singleton.mp member
    exact held
  · intro inside
    refine ⟨text.map fun c => [c], by rw [← List.flatMap_def, List.flatMap_singleton'], ?_⟩
    exact List.forall_mem_map.mpr fun c member => ⟨c, rfl, inside c member⟩

/-- A character of one class and then any number of another. -/
theorem mem_oneOf_mul_kstar {first later : Char → Bool} {text : List Char} :
    text ∈ oneOf first * (oneOf later)∗ ↔
      ∃ c rest, text = c :: rest ∧ first c = true ∧ ∀ d ∈ rest, later d = true := by
  rw [Language.mem_mul]
  constructor
  · rintro ⟨_, ⟨c, rfl, held⟩, rest, inside, rfl⟩
    exact ⟨c, rest, rfl, held, mem_kstar_oneOf.mp inside⟩
  · rintro ⟨c, rest, rfl, held, inside⟩
    exact ⟨[c], ⟨c, rfl, held⟩, rest, mem_kstar_oneOf.mpr inside, rfl⟩

theorem mem_digits {text : List Char} : text ∈ digits ↔ Token.IsDigits text := by
  rw [digits, mem_oneOf_mul_kstar]
  constructor
  · rintro ⟨c, rest, rfl, held, inside⟩
    exact ⟨by simp, List.forall_mem_cons.mpr ⟨held, inside⟩⟩
  · rintro ⟨nonempty, inside⟩
    obtain ⟨c, rest, rfl⟩ := List.exists_cons_of_ne_nil nonempty
    obtain ⟨held, inside⟩ := List.forall_mem_cons.mp inside
    exact ⟨c, rest, rfl, held, inside⟩

private theorem mem_unsigned {text : List Char} :
    text ∈ digits * (1 + {['.']} * digits) ↔ Token.IsUnsigned text := by
  rw [Language.mem_mul]
  constructor
  · rintro ⟨whole, wholeDigits, rest, empty | ⟨_, rfl, places, placesDigits, rfl⟩, rfl⟩
    · obtain rfl : rest = [] := empty
      rw [List.append_nil]
      exact .whole (mem_digits.mp wholeDigits)
    · exact .fraction (mem_digits.mp wholeDigits) (mem_digits.mp placesDigits)
  · intro unsigned
    cases unsigned with
    | whole digits => exact ⟨text, mem_digits.mpr digits, [], .inl rfl, List.append_nil _⟩
    | @fraction whole places digits more =>
      exact ⟨whole, mem_digits.mpr digits, '.' :: places,
        .inr ⟨['.'], rfl, places, mem_digits.mpr more, rfl⟩, rfl⟩

theorem mem_numeral {text : List Char} : text ∈ language .numeral ↔ Token.IsNumeral text := by
  rw [language, Language.mem_mul]
  constructor
  · rintro ⟨sign, empty | minus, magnitude, unsigned, rfl⟩
    · obtain rfl : sign = [] := empty
      exact .positive (mem_unsigned.mp unsigned)
    · obtain rfl : sign = ['-'] := minus
      exact .negative (mem_unsigned.mp unsigned)
  · intro numeral
    cases numeral with
    | positive magnitude => exact ⟨[], .inl rfl, text, mem_unsigned.mpr magnitude, rfl⟩
    | @negative magnitude unsigned =>
      exact ⟨['-'], .inr rfl, magnitude, mem_unsigned.mpr unsigned, rfl⟩

theorem mem_name {text : List Char} : text ∈ language .name ↔ ∃ c rest, text = c :: rest ∧
    Token.isNameStart c = true ∧ ∀ d ∈ rest, Token.isNameRest d = true :=
  mem_oneOf_mul_kstar

theorem mem_content {text : List Char} : text ∈ content ↔ Token.IsQuotable text := by
  rw [content, Language.mem_kstar]
  constructor
  · rintro ⟨parts, rfl, inside⟩
    induction parts with
    | nil => exact .done
    | cons part parts ih =>
      obtain ⟨first, later⟩ := List.forall_mem_cons.mp inside
      rw [List.flatten_cons]
      rcases first with ⟨c, rfl, held⟩ | ⟨_, rfl, _, ⟨c, rfl, held⟩, rfl⟩
      · obtain ⟨noQuote, noEscape⟩ : c ≠ '"' ∧ c ≠ '\\' := by simpa using held
        exact .plain noQuote noEscape (ih later)
      · exact .escaped (by simpa using held) (ih later)
  · intro quotable
    induction quotable with
    | done => exact ⟨[], rfl, by simp⟩
    | @escaped c chars ordinary _ ih =>
      obtain ⟨parts, rfl, inside⟩ := ih
      refine ⟨['\\', c] :: parts, rfl, List.forall_mem_cons.mpr ⟨.inr ?_, inside⟩⟩
      exact ⟨['\\'], rfl, [c], ⟨c, rfl, by simpa using ordinary⟩, rfl⟩
    | @plain c chars noQuote noEscape _ ih =>
      obtain ⟨parts, rfl, inside⟩ := ih
      refine ⟨[c] :: parts, rfl, List.forall_mem_cons.mpr ⟨.inl ?_, inside⟩⟩
      exact ⟨c, rfl, by simp [noQuote, noEscape]⟩

theorem mem_quoted {text : List Char} : text ∈ language .quoted ↔
    ∃ chars, text = '"' :: (chars ++ ['"']) ∧ Token.IsQuotable chars := by
  rw [language, Language.mem_mul]
  constructor
  · rintro ⟨_, rfl, _, ⟨chars, inside, _, rfl, rfl⟩, rfl⟩
    exact ⟨chars, rfl, mem_content.mp inside⟩
  · rintro ⟨chars, rfl, quotable⟩
    exact ⟨['"'], rfl, _, ⟨chars, mem_content.mpr quotable, ['"'], rfl, rfl⟩, rfl⟩

end Terminal

namespace Token

/-- The terminal that a token belongs to. -/
def terminal : Token → Terminal
  | .numeral _ => .numeral
  | .keyword word => .keyword word
  | .name _ => .name
  | .quoted _ => .quoted

/-- The text of the token is in the language of its terminal. -/
def Valid (token : Token) : Prop :=
  token.text.toList ∈ token.terminal.language

/-- No beginning of the input is longer than the token and in the language of a terminal, and the
token is the most preferred one with its text. -/
structure LongestMatch (input : List Char) (token : Token) : Prop where
  valid : token.Valid
  inside : token.text.toList <+: input
  longest : ∀ (terminal : Terminal) (text : List Char), text ∈ terminal.language →
    text <+: input → text.length ≤ token.length
  preferred : ∀ terminal : Terminal, token.text.toList ∈ terminal.language →
    token.terminal.rank ≤ terminal.rank

/-- No beginning of the input is in the language of a terminal. -/
def NoMatch (input : List Char) : Prop :=
  ∀ (terminal : Terminal) (text : List Char), text ∈ terminal.language → ¬ text <+: input

/-! ## The proposals of the lexer -/

theorem numeral_terminal (found : numeral? input = some token) : token.terminal = .numeral := by
  obtain ⟨_, rfl, _⟩ := numeral_proposal found
  rfl

theorem name_terminal (found : name? input = some token) : token.terminal = .name := by
  obtain ⟨_, _, rfl, _⟩ := name_proposal found
  rfl

theorem quoted_terminal (found : quoted? input = some token) : token.terminal = .quoted := by
  obtain ⟨_, _, rfl, _⟩ := quoted_proposal found
  rfl

private theorem unsigned_longest (unsigned : IsUnsigned chars) (rest : List Char) :
    ∃ longer, unsignedNumeral? (chars ++ rest) = some longer ∧ chars.length ≤ longer.length := by
  cases unsigned with
  | whole digits =>
    have taken : (chars ++ rest).takeWhile Char.isDigit = chars ++ rest.takeWhile Char.isDigit :=
      List.takeWhile_append_of_pos digits.2
    refine ⟨chars ++ (rest.takeWhile Char.isDigit ++
      fractionOf ((chars ++ rest).dropWhile Char.isDigit)), ?_, by simp⟩
    simp only [unsignedNumeral?, taken, List.append_assoc]
    simp [digits.1]
  | @fraction chars more digits places =>
    have taken : (chars ++ '.' :: (more ++ rest)).takeWhile Char.isDigit = chars := by
      simp [List.takeWhile_append_of_pos digits.2]
    have dropped : (chars ++ '.' :: (more ++ rest)).dropWhile Char.isDigit =
        '.' :: (more ++ rest) := by
      simp [List.dropWhile_append_of_pos digits.2]
    refine ⟨chars ++ '.' :: (more ++ rest.takeWhile Char.isDigit), ?_, by simp⟩
    rw [List.append_assoc, List.cons_append]
    simp [unsignedNumeral?, taken, dropped, fractionOf, List.takeWhile_append_of_pos places.2,
      digits.1, places.1]

/-- No beginning of the input is a longer numeral than the one that is proposed. -/
theorem numeral_longest (numeral : IsNumeral chars) (inside : chars <+: input) :
    ∃ token, numeral? input = some token ∧ chars.length ≤ token.length := by
  obtain ⟨rest, rfl⟩ := inside
  cases numeral with
  | positive magnitude =>
    obtain ⟨longer, read, bound⟩ := unsigned_longest magnitude rest
    obtain ⟨c, more, rfl, digit⟩ := unsigned_digit_first magnitude
    have noMinus : c ≠ '-' := by rintro rfl; exact absurd digit (by decide)
    refine ⟨.numeral (String.ofList longer), ?_, by simpa [length, text] using bound⟩
    rw [List.cons_append] at read ⊢
    simp [numeral?, noMinus, read]
  | negative magnitude =>
    obtain ⟨longer, read, bound⟩ := unsigned_longest magnitude rest
    refine ⟨.numeral (String.ofList ('-' :: longer)), by simp [numeral?, read], ?_⟩
    simpa only [length, text, String.length_ofList, List.length_cons, Nat.add_le_add_iff_right]
      using bound

theorem proposal_valid (proposed : token ∈ proposals input) : token.Valid := by
  rcases proposal_cases proposed with numeral | ⟨word, rfl, _⟩ | name | quoted
  · obtain ⟨chars, rfl, isNumeral, _⟩ := numeral_proposal numeral
    exact Terminal.mem_numeral.mpr (by simpa [text] using isNumeral)
  · exact Set.mem_singleton _
  · obtain ⟨c, rest, rfl, start, _⟩ := name_proposal name
    exact Terminal.mem_name.mpr
      ⟨c, rest.takeWhile isNameRest, by simp [text], start, takeWhile_inside _ _⟩
  · obtain ⟨rest, chars, rfl, _, read⟩ := quoted_proposal quoted
    exact Terminal.mem_quoted.mpr ⟨chars, by simp [text], (quoted_content_ends read).1⟩

/-- Whatever begins the input and belongs to a terminal, that terminal proposes a token that is not
shorter. -/
theorem proposal_covers {terminal : Terminal} {chars : List Char}
    (matched : chars ∈ terminal.language) (inside : chars <+: input) :
    ∃ token ∈ proposals input, token.terminal = terminal ∧ chars.length ≤ token.length := by
  cases terminal with
  | numeral =>
    obtain ⟨token, proposed, bound⟩ := numeral_longest (Terminal.mem_numeral.mp matched) inside
    exact ⟨token, by simp [proposals, proposed], numeral_terminal proposed, bound⟩
  | keyword word =>
    obtain rfl : chars = word.text.toList := matched
    have listed : word ∈ Keyword.all := by cases word <;> decide
    have proposed : .keyword word ∈ keywords input :=
      List.mem_map_of_mem (List.mem_filter.mpr ⟨listed, List.isPrefixOf_iff_prefix.mpr inside⟩)
    exact ⟨.keyword word, by simp [proposals, proposed], rfl, Nat.le_refl _⟩
  | name =>
    obtain ⟨c, rest, rfl, start, within⟩ := Terminal.mem_name.mp matched
    obtain ⟨more, rfl⟩ := inside
    refine ⟨.name (String.ofList (c :: (rest ++ more).takeWhile isNameRest)), ?_, rfl, ?_⟩
    · simp [proposals, name?, start]
    · have longer : rest.length ≤ ((rest ++ more).takeWhile isNameRest).length := by
        simp [List.takeWhile_append_of_pos within]
      rw [length, ← String.length_toList]
      simpa [text] using longer
  | quoted =>
    obtain ⟨content, rfl, quotable⟩ := Terminal.mem_quoted.mp matched
    obtain ⟨more, rfl⟩ := inside
    refine ⟨.quoted (String.ofList content), ?_, rfl, ?_⟩
    · have read := quoted_content_reads quotable more
      simp [proposals, quoted?, read]
    · rw [length, ← String.length_toList]
      simp [text]

/-- Proposals stand in the order of their ranks: inside a group the ranks are equal, and each group
is followed by groups of greater rank. -/
theorem proposals_ranked (input : List Char) :
    (proposals input).Pairwise fun first later => first.terminal.rank ≤ later.terminal.rank := by
  have numerals : ∀ token ∈ (numeral? input).toList, token.terminal.rank = 0 := by
    intro token member
    rw [numeral_terminal (Option.mem_toList.mp member)]
    rfl
  have words : ∀ token ∈ keywords input, token.terminal.rank = 1 := by
    intro token member
    obtain ⟨word, _, rfl⟩ := List.mem_map.mp member
    rfl
  have names : ∀ token ∈ (name? input).toList, token.terminal.rank = 2 := by
    intro token member
    rw [name_terminal (Option.mem_toList.mp member)]
    rfl
  have strings : ∀ token ∈ (quoted? input).toList, token.terminal.rank = 2 := by
    intro token member
    rw [quoted_terminal (Option.mem_toList.mp member)]
    rfl
  have even : ∀ {list : List Token} {rank}, (∀ token ∈ list, token.terminal.rank = rank) →
      list.Pairwise fun first later => first.terminal.rank ≤ later.terminal.rank := by
    intro list rank same
    refine List.pairwise_of_forall_mem_list fun first member later member' => ?_
    rw [same first member, same later member']
  rw [proposals, List.pairwise_append, List.pairwise_append, List.pairwise_append]
  refine ⟨⟨⟨even numerals, even words, ?_⟩, even names, ?_⟩, even strings, ?_⟩ <;> grind

/-! ## The choice of the lexer -/

/-- The chosen proposal is a longest match: a more preferred one of its length would have stood
before it. -/
theorem first_longest_match (found : first? input = some token) : LongestMatch input token := by
  obtain ⟨before, after, same, shorter, bounded⟩ := longest_splits found
  have proposed : token ∈ proposals input := by simp [same]
  have ranked := proposals_ranked input
  rw [same, List.pairwise_append, List.pairwise_cons] at ranked
  refine ⟨proposal_valid proposed, (proposal_begins proposed).2, ?_, ?_⟩
  · intro terminal chars matched inside
    obtain ⟨other, otherProposed, _, bound⟩ := proposal_covers matched inside
    refine Nat.le_trans bound ?_
    rw [same, List.mem_append, List.mem_cons] at otherProposed
    rcases otherProposed with earlier | rfl | later
    · exact Nat.le_of_lt (shorter other earlier)
    · exact Nat.le_refl _
    · exact bounded other later
  · intro terminal matched
    obtain ⟨other, otherProposed, rfl, bound⟩ :=
      proposal_covers matched (proposal_begins proposed).2
    rw [same, List.mem_append, List.mem_cons] at otherProposed
    rcases otherProposed with earlier | rfl | later
    · exact absurd (shorter other earlier) (Nat.not_lt.mpr bound)
    · exact Nat.le_refl _
    · exact ranked.2.1.1 other later

/-- No name is written like a string. -/
private theorem name_ne_quoted (valid : (Token.name word).Valid) :
    word.toList ≠ (Token.quoted content).text.toList := by
  obtain ⟨c, rest, chars, start, _⟩ := Terminal.mem_name.mp valid
  intro same
  obtain ⟨rfl, _⟩ : '"' = c ∧ content.toList ++ ['"'] = rest := by
    simpa [text] using same.symm.trans chars
  exact absurd start (by decide)

/-- Two terminals of one rank have no text in common, so its text and its rank decide which token
it is. -/
private theorem eq_of_text {token other : Token} (valid : token.Valid) (otherValid : other.Valid)
    (texts : token.text.toList = other.text.toList)
    (ranks : token.terminal.rank = other.terminal.rank) : token = other := by
  cases token with
  | numeral chars =>
    cases other with
    | numeral others => exact congrArg _ (String.toList_inj.mp texts)
    | keyword | name | quoted => simp [terminal, Terminal.rank] at ranks
  | keyword word =>
    cases other with
    | keyword other =>
      have alone : first? word.text.toList = some (.keyword word) := keyword_reads_alone word
      have otherAlone : first? other.text.toList = some (.keyword other) :=
        keyword_reads_alone other
      rw [show word.text.toList = other.text.toList from texts, otherAlone] at alone
      exact (Option.some.inj alone).symm
    | numeral | name | quoted => simp [terminal, Terminal.rank] at ranks
  | name word =>
    cases other with
    | name other => exact congrArg _ (String.toList_inj.mp texts)
    | quoted content => exact absurd texts (name_ne_quoted valid)
    | numeral | keyword => simp [terminal, Terminal.rank] at ranks
  | quoted content =>
    cases other with
    | name other => exact absurd texts.symm (name_ne_quoted otherValid)
    | quoted other =>
      have same : content.toList = other.toList := by simpa [text] using texts
      exact congrArg _ (String.toList_inj.mp same)
    | numeral | keyword => simp [terminal, Terminal.rank] at ranks

theorem longest_match_unique (first : LongestMatch input token)
    (second : LongestMatch input other) : token = other := by
  have lengths : token.text.toList.length = other.text.toList.length :=
    Nat.le_antisymm (second.longest _ _ first.valid first.inside)
      (first.longest _ _ second.valid second.inside)
  have texts : token.text.toList = other.text.toList :=
    (List.prefix_of_prefix_length_le first.inside second.inside lengths.le).eq_of_length lengths
  refine eq_of_text first.valid second.valid texts (Nat.le_antisymm ?_ ?_)
  · exact first.preferred _ (texts ▸ second.valid)
  · exact second.preferred _ (texts ▸ first.valid)

/-- The lexer finds no token exactly where no terminal matches. -/
theorem first_none_iff_no_match : first? input = none ↔ NoMatch input := by
  rw [first?, longest_none_iff]
  constructor
  · intro nothing terminal chars matched inside
    obtain ⟨token, proposed, _⟩ := proposal_covers matched inside
    simp [nothing] at proposed
  · intro noMatch
    refine List.eq_nil_iff_forall_not_mem.mpr fun token proposed => ?_
    exact noMatch _ _ (proposal_valid proposed) (proposal_begins proposed).2

/-- The lexer makes the choice of the longest match. -/
theorem first_iff_longest_match : first? input = some token ↔ LongestMatch input token := by
  constructor
  · exact first_longest_match
  · intro longest
    cases found : first? input with
    | none => exact absurd longest.inside (first_none_iff_no_match.mp found _ _ longest.valid)
    | some other => rw [longest_match_unique (first_longest_match found) longest]

end Token

end TypedForms
