import TypedForms.Token.Lexer

/-! Where a token ends.  A text that is followed by a blank or a parenthesis
proposes the tokens that it proposes alone, so a printed token is read back
whatever comes after the space or parenthesis that ends it.  Strings end at
their own quote and parentheses after one character, at any place.
-/
namespace TypedForms.Token

/-- The characters that no name, numeral or longer keyword goes on with. -/
def isDelimiter (c : Char) : Bool :=
  Text.isBlank c || c == '(' || c == ')'

/-- A text that is over, or that goes on with a delimiter. -/
def Delimited (rest : List Char) : Prop :=
  ∀ c ∈ rest.head?, isDelimiter c = true

theorem delimited_append (first : Delimited left) (later : Delimited right) :
    Delimited (left ++ right) := by
  cases left with
  | nil => exact later
  | cons c left => exact first

private theorem name_rest_code (inside : isNameRest c = true) :
    33 ≤ c.toNat ∧ c.toNat ≤ 126 ∧ c.toNat ≠ 40 ∧ c.toNat ≠ 41 := by
  simp only [isNameRest, isNameStart] at inside
  delta isNameMark Char.isAlpha Char.isUpper Char.isLower Char.isDigit at inside
  simp only [Bool.or_eq_true, Bool.and_eq_true, decide_eq_true_eq, beq_iff_eq,
    List.contains_eq_mem, List.mem_cons, List.not_mem_nil, or_false, ge_iff_le,
    UInt32.le_iff_toNat_le] at inside
  have code : c.toNat = c.val.toNat := rfl
  rcases inside with (((upper | lower) | mark) | digit) | point
  · simp at upper; omega
  · simp at lower; omega
  · rcases mark with rfl | rfl | rfl | rfl | rfl | rfl | rfl | rfl | rfl | rfl | rfl | rfl | rfl |
      rfl | rfl <;> decide
  · simp at digit; omega
  · subst point; decide

private theorem delimiter_code (delimiter : isDelimiter c = true) :
    c.toNat ≤ 32 ∨ c.toNat = 40 ∨ c.toNat = 41 ∨ 127 ≤ c.toNat := by
  simp only [isDelimiter, Text.isBlank, Text.blankRanges, List.any_cons, List.any_nil,
    Bool.or_eq_true, Bool.and_eq_true, decide_eq_true_eq, Bool.false_eq_true, or_false,
    beq_iff_eq] at delimiter
  rcases delimiter with (blank | rfl) | rfl
  · omega
  · decide
  · decide

theorem delimiter_ends_name (delimiter : isDelimiter c = true) : isNameRest c = false := by
  cases inside : isNameRest c with
  | false => rfl
  | true =>
    have := name_rest_code inside
    have := delimiter_code delimiter
    omega

theorem delimiter_not_digit (delimiter : isDelimiter c = true) : c.isDigit = false := by
  have ends := delimiter_ends_name delimiter
  simp only [isNameRest, Bool.or_eq_false_iff] at ends
  exact ends.1.2

theorem delimiter_not_start (delimiter : isDelimiter c = true) : isNameStart c = false := by
  have ends := delimiter_ends_name delimiter
  simp only [isNameRest, Bool.or_eq_false_iff] at ends
  exact ends.1.1

theorem delimiter_of_blank (blank : Text.isBlank c = true) : isDelimiter c = true := by
  simp [isDelimiter, blank]

/-! ## Runs of characters of one class -/

/-- The class of a run excludes the character after it. -/
def Stops (p : Char → Bool) (rest : List Char) : Prop :=
  ∀ c ∈ rest.head?, p c = false

theorem takeWhile_inside (p : Char → Bool) (run : List Char) : ∀ c ∈ run.takeWhile p, p c = true :=
  List.all_eq_true.mp List.all_takeWhile

theorem takeWhile_full {p : Char → Bool} {run : List Char} (inside : ∀ c ∈ run, p c = true) :
    run.takeWhile p = run := by
  induction run with
  | nil => rfl
  | cons c run ih =>
    simp [inside c (by simp), ih fun d member => inside d (by simp [member])]

theorem takeWhile_stops (stops : Stops p rest) (run : List Char) :
    (run ++ rest).takeWhile p = run.takeWhile p := by
  induction run with
  | nil =>
    cases rest with
    | nil => rfl
    | cons c rest => simp [stops c rfl]
  | cons c run ih => simp [List.takeWhile_cons, ih]

theorem dropWhile_stops (stops : Stops p rest) (run : List Char) :
    (run ++ rest).dropWhile p = run.dropWhile p ++ rest := by
  induction run with
  | nil =>
    cases rest with
    | nil => rfl
    | cons c rest => simp [stops c rfl]
  | cons c run ih =>
    by_cases inside : p c = true
    · simp [inside, ih]
    · simp [inside]

private theorem digits_stop (ended : Delimited rest) : Stops Char.isDigit rest :=
  fun c head => delimiter_not_digit (ended c head)

/-! ## Proposals at a delimiter -/

private theorem fraction_delimited (ended : Delimited rest) (input : List Char) :
    fractionOf (input ++ rest) = fractionOf input := by
  cases input with
  | nil =>
    cases rest with
    | nil => rfl
    | cons c rest =>
      have different : c ≠ '.' := by
        rintro rfl
        exact absurd (ended '.' rfl) (by decide)
      simp [fractionOf, different]
  | cons c input =>
    by_cases point : c = '.'
    · subst point
      simp only [List.cons_append, fractionOf, takeWhile_stops (digits_stop ended)]
    · simp [fractionOf, point]

private theorem unsigned_delimited (ended : Delimited rest) (input : List Char) :
    unsignedNumeral? (input ++ rest) = unsignedNumeral? input := by
  simp only [unsignedNumeral?, takeWhile_stops (digits_stop ended),
    dropWhile_stops (digits_stop ended), fraction_delimited ended]

private theorem numeral_delimited (ended : Delimited rest) (c : Char) (input : List Char) :
    numeral? (c :: input ++ rest) = numeral? (c :: input) := by
  by_cases minus : c = '-'
  · subst minus
    simp only [List.cons_append, numeral?, unsigned_delimited ended]
  · have same := unsigned_delimited ended (c :: input)
    simp only [List.cons_append] at same
    simp [numeral?, minus, same]

private theorem name_delimited (ended : Delimited rest) (c : Char) (input : List Char) :
    name? (c :: input ++ rest) = name? (c :: input) := by
  simp only [List.cons_append, name?,
    takeWhile_stops (fun c head => delimiter_ends_name (ended c head))]

/-- Beyond its first character no keyword has a delimiter. -/
private theorem keyword_tail_undelimited (word : Keyword) :
    (word.text.toList.tail.all fun c => !isDelimiter c) = true := by
  cases word <;> decide

/-- A keyword that reached beyond the input would hold the delimiter that comes after it. -/
private theorem keyword_delimited (ended : Delimited rest) (word : Keyword) (c : Char)
    (input : List Char) :
    word.text.toList.isPrefixOf (c :: input ++ rest) =
      word.text.toList.isPrefixOf (c :: input) := by
  apply Bool.eq_iff_iff.mpr
  simp only [ List.isPrefixOf_iff_prefix]
  constructor
  · intro whole
    rcases List.prefix_or_prefix_of_prefix whole (List.prefix_append (c :: input) rest) with
      inside | beyond
    · exact inside
    · obtain ⟨more, same⟩ := beyond
      rw [← same] at whole
      have morePrefix : more <+: rest := (List.prefix_append_right_inj _).mp whole
      cases more with
      | nil => simp [← same]
      | cons d more =>
        have atHead : d ∈ rest.head? := by
          obtain ⟨_, rfl⟩ := morePrefix
          rfl
        have inTail : d ∈ word.text.toList.tail := by simp [← same]
        have := List.all_eq_true.mp (keyword_tail_undelimited word) d inTail
        simp [ended d atHead] at this
  · exact fun inside => inside.trans (List.prefix_append _ _)

private theorem keywords_delimited (ended : Delimited rest) (c : Char) (input : List Char) :
    keywords (c :: input ++ rest) = keywords (c :: input) := by
  unfold keywords
  congr 1
  exact List.filter_congr fun word _ => keyword_delimited ended word c input

/-- What follows a delimiter has no influence on the token before it.  Only strings reach over
delimiters. -/
theorem first_delimited (ended : Delimited rest) {c : Char} (noString : c ≠ '"')
    (input : List Char) : first? (c :: input ++ rest) = first? (c :: input) := by
  have noQuoted : ∀ later, quoted? (c :: later) = none := by
    intro later
    simp [quoted?, noString]
  have same : proposals (c :: input ++ rest) = proposals (c :: input) := by
    simp only [proposals, numeral_delimited ended, keywords_delimited ended, name_delimited ended]
    simp only [List.cons_append, noQuoted]
  rw [first?, first?, same]

end TypedForms.Token
