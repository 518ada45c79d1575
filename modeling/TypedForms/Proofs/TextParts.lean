import TypedForms.Proofs.NodeRanges
import TypedForms.Proofs.Patterns

/-! The lexer reads the longest match, and what it reads makes up the whole text.

At every place the lexer's choice is that of the longest match over the regular
expressions of the grammar.  Repeated to the end of a text, it leaves the text cut
into parts, tokens and the runs of blanks between them.  The parts follow each
other without gap or overlap, so every byte belongs to exactly one of them.
-/
namespace TypedForms.Token

/-! ## The ends of a token -/

private theorem last_of_all {holds : Char → Prop} (nonempty : chars ≠ [])
    (all : ∀ c ∈ chars, holds c) : ∃ earlier c, chars = earlier ++ [c] ∧ holds c :=
  ⟨chars.dropLast, chars.getLast nonempty, (List.dropLast_append_getLast nonempty).symm,
    all _ (List.getLast_mem nonempty)⟩

private theorem unsigned_ends (unsigned : IsUnsigned chars) :
    ∃ earlier c, chars = earlier ++ [c] ∧ c.isDigit = true := by
  cases unsigned with
  | whole digits => exact last_of_all digits.1 digits.2
  | @fraction whole places digits more =>
    obtain ⟨earlier, c, rfl, digit⟩ := last_of_all more.1 more.2
    exact ⟨whole ++ '.' :: earlier, c, by simp, digit⟩

private theorem unblank_of_rest (inside : isNameRest c = true) : Text.isBlank c = false := by
  apply Bool.eq_false_iff.mpr
  intro blank
  rw [delimiter_ends_name (delimiter_of_blank blank)] at inside
  cases inside

private theorem digit_in_name (digit : c.isDigit = true) : isNameRest c = true := by
  simp [isNameRest, digit]

/-- The last character of a token is no blank. -/
theorem Valid.ends_unblank {token : Token} (valid : token.Valid) :
    ∃ earlier c, token.text.toList = earlier ++ [c] ∧ Text.isBlank c = false := by
  cases token with
  | numeral chars =>
    have numeral : IsNumeral chars.toList := Terminal.mem_numeral.mp valid
    rw [text]
    generalize chars.toList = digits at numeral
    cases numeral with
    | positive magnitude =>
      obtain ⟨earlier, c, same, digit⟩ := unsigned_ends magnitude
      exact ⟨earlier, c, same, unblank_of_rest (digit_in_name digit)⟩
    | negative magnitude =>
      obtain ⟨earlier, c, rfl, digit⟩ := unsigned_ends magnitude
      exact ⟨'-' :: earlier, c, rfl, unblank_of_rest (digit_in_name digit)⟩
  | keyword word =>
    have unblank : (word.text.toList.all fun c => !Text.isBlank c) = true := by
      cases word <;> decide
    have nonempty : word.text.toList ≠ [] := by cases word <;> decide
    exact last_of_all nonempty fun c member => by simpa using List.all_eq_true.mp unblank c member
  | name chars =>
    obtain ⟨c, rest, same, start, inside⟩ := Terminal.mem_name.mp valid
    have all : ∀ d ∈ c :: rest, isNameRest d = true := by
      refine List.forall_mem_cons.mpr ⟨?_, inside⟩
      simp [isNameRest, start]
    obtain ⟨earlier, d, ends, held⟩ := last_of_all (List.cons_ne_nil c rest) all
    exact ⟨earlier, d, same.trans ends, unblank_of_rest held⟩
  | quoted content =>
    exact ⟨'"' :: content.toList, '"', by simp [text], by decide⟩

/-- The first character of a token that is read is no blank. -/
private theorem LongestMatch.begins_unblank
    (longest : LongestMatch (token.text.toList ++ rest) token) :
    ∀ c ∈ (token.text.toList ++ rest).head?, Text.isBlank c = false := by
  have found := first_iff_longest_match.mpr longest
  intro c head
  apply Bool.eq_false_iff.mpr
  intro blank
  obtain ⟨later, same⟩ := List.head?_eq_some_iff.mp head
  rw [same, blank_begins_no_token blank] at found
  cases found

/-- No terminal matches the empty text. -/
private theorem matches_some {terminal : Terminal} (matched : chars ∈ terminal.language) :
    chars ≠ [] := by
  rintro rfl
  obtain ⟨token, proposed, _⟩ := proposal_covers matched (List.nil_prefix (l := []))
  obtain ⟨nonempty, inside⟩ := proposal_begins proposed
  exact nonempty (List.prefix_nil.mp inside)

/-! ## The parts of a text -/

/-- A part of a text that has been cut into tokens. -/
inductive Part where
  | token (lexeme : Lexeme)
  /-- The blanks before a token or before the end of the text. -/
  | blanks (range : Range)

namespace Part

/-- Where the part stands. -/
def range : Part → Range
  | .token lexeme => lexeme.range
  | .blanks range => range

/-- The part is what its range says: a token that is the longest match where it stands, or blanks
that go on to both sides as far as there are any. -/
def Holds (before own after : List Char) : Part → Prop
  | .token lexeme => own = lexeme.token.text.toList ∧ LongestMatch (own ++ after) lexeme.token
  | .blanks _ => (∀ c ∈ own, Text.isBlank c = true) ∧
      (∀ c ∈ before.getLast?, Text.isBlank c = false) ∧ ∀ c ∈ after.head?, Text.isBlank c = false

/-- Both ends of the part lie between characters of the text, and it holds what is between them. -/
def Stands (whole : List Char) (part : Part) : Prop :=
  ∃ before own after, whole = before ++ (own ++ after) ∧ own ≠ [] ∧
    Text.byteLength before = part.range.start ∧
    Text.byteLength (before ++ own) = part.range.stop ∧ part.Holds before own after

end Part

/-- The blanks from one offset to another, nothing when these are the same. -/
def blanksBetween (start stop : Nat) : List Part :=
  if start < stop then [.blanks ⟨start, stop⟩] else []

/-- The parts of a text from an offset on: its tokens and what is left between them. -/
def partsFrom (length offset : Nat) : List Lexeme → List Part
  | [] => blanksBetween offset length
  | lexeme :: later =>
    blanksBetween offset lexeme.start ++ .token lexeme :: partsFrom length lexeme.stop later

/-! ## No gap and no overlap -/

/-- The parts lead from one offset to another, each beginning where the one before it ends. -/
def Contiguous (start stop : Nat) : List Part → Prop
  | [] => start = stop
  | part :: later =>
    part.range.start = start ∧ start < part.range.stop ∧ Contiguous part.range.stop stop later

theorem contiguous_gap (ordered : start ≤ middle) (later : Contiguous middle stop parts) :
    Contiguous start stop (blanksBetween start middle ++ parts) := by
  by_cases apart : start < middle
  · rw [blanksBetween, if_pos apart]
    exact ⟨rfl, apart, later⟩
  · obtain rfl : start = middle := by omega
    simpa [blanksBetween] using later

/-- The blanks that have been passed since the last token begin at `base`. -/
theorem contiguous_parts (splits : Splits rest offset chars lexemes) (passed : base ≤ offset) :
    Contiguous base (offset + Text.byteLength chars)
      (partsFrom (offset + Text.byteLength chars) base lexemes) := by
  induction splits generalizing base with
  | nothing =>
    simpa [partsFrom, Text.byteLength] using @contiguous_gap _ _ _ [] passed rfl
  | @blank c offset chars lexemes _ _ ih =>
    rw [Text.byteLength, ← Nat.add_assoc]
    exact ih (by omega)
  | @token chars token offset lexemes longest _ ih =>
    have nonempty := (first_begins (first_iff_longest_match.mpr longest)).1
    rw [byteLength_append, ← Nat.add_assoc]
    refine contiguous_gap passed ⟨rfl, ?_, ih (Nat.le_refl _)⟩
    exact Nat.lt_add_of_pos_right (byteLength_pos nonempty)

theorem Contiguous.start_le {parts : List Part} (contiguous : Contiguous start stop parts) :
    ∀ part ∈ parts, start ≤ part.range.start := by
  induction parts generalizing start with
  | nil => exact nofun
  | cons first later ih =>
    obtain ⟨begins, proper, rest⟩ := contiguous
    refine List.forall_mem_cons.mpr ⟨by omega, fun part member => ?_⟩
    have := ih rest part member
    omega

/-- Every offset between the ends lies in exactly one of the parts. -/
theorem Contiguous.covers {parts : List Part} (contiguous : Contiguous start stop parts)
    (lower : start ≤ offset) (upper : offset < stop) :
    ∃! part, part ∈ parts ∧ part.range.start ≤ offset ∧ offset < part.range.stop := by
  induction parts generalizing start with
  | nil =>
    have ended : start = stop := contiguous
    omega
  | cons first later ih =>
    obtain ⟨begins, proper, rest⟩ := contiguous
    by_cases inside : offset < first.range.stop
    · refine ⟨first, ⟨List.mem_cons_self, by omega, inside⟩, ?_⟩
      rintro other ⟨member, otherLower, _⟩
      rcases List.mem_cons.mp member with same | member
      · exact same
      · have := rest.start_le other member
        omega
    · obtain ⟨part, ⟨member, bounds⟩, unique⟩ := ih rest (by omega)
      refine ⟨part, ⟨List.mem_cons_of_mem _ member, bounds⟩, ?_⟩
      rintro other ⟨otherMember, otherLower, otherUpper⟩
      rcases List.mem_cons.mp otherMember with rfl | otherMember
      · omega
      · exact unique other ⟨otherMember, otherLower, otherUpper⟩

/-! ## What the parts hold -/

private theorem gap_stands (cut : whole = before ++ (pending ++ after))
    (begins : Text.byteLength before = start) (ends : Text.byteLength (before ++ pending) = stop)
    (blank : ∀ c ∈ pending, Text.isBlank c = true)
    (ended : ∀ c ∈ before.getLast?, Text.isBlank c = false)
    (resumed : ∀ c ∈ after.head?, Text.isBlank c = false) :
    ∀ part ∈ blanksBetween start stop, part.Stands whole := by
  intro part member
  by_cases proper : start < stop
  · rw [blanksBetween, if_pos proper, List.mem_singleton] at member
    subst member
    refine ⟨before, pending, after, cut, ?_, begins, ends, blank, ended, resumed⟩
    rintro rfl
    rw [List.append_nil] at ends
    omega
  · simp [blanksBetween, proper] at member

/-- Every part of a split text stands in it.  `pending` are the blanks since the last token. -/
theorem parts_stand (splits : Splits [] offset chars lexemes)
    (cut : whole = before ++ (pending ++ chars)) (begins : Text.byteLength before = base)
    (here : Text.byteLength (before ++ pending) = offset)
    (blank : ∀ c ∈ pending, Text.isBlank c = true)
    (ended : ∀ c ∈ before.getLast?, Text.isBlank c = false) :
    ∀ part ∈ partsFrom (Text.byteLength whole) base lexemes, part.Stands whole := by
  induction splits generalizing before pending base with
  | nothing =>
    refine gap_stands cut begins ?_ blank ended nofun
    rw [cut, List.append_nil]
  | @blank c offset chars lexemes blankChar _ ih =>
    refine @ih before (pending ++ [c]) base (by simp [cut]) begins ?_ ?_ ended
    · rw [← List.append_assoc, byteLength_append, here]
      rfl
    · intro d member
      rcases List.mem_append.mp member with member | member
      · exact blank d member
      · rwa [List.mem_singleton.mp member]
  | @token chars token offset lexemes longest _ ih =>
    rw [List.append_nil] at longest
    have nonempty := (first_begins (first_iff_longest_match.mpr longest)).1
    have stop : Text.byteLength (before ++ pending ++ token.text.toList) =
        offset + Text.byteLength token.text.toList := by
      rw [byteLength_append, here]
    intro part member
    rcases List.mem_append.mp member with member | member
    · exact gap_stands cut begins here blank ended longest.begins_unblank part member
    · rcases List.mem_cons.mp member with rfl | member
      · exact ⟨before ++ pending, token.text.toList, chars, by simp [cut], nonempty, here, stop,
          rfl, longest⟩
      · refine @ih (before ++ pending ++ token.text.toList) [] _ (by simp [cut]) stop
          (by simpa using stop) nofun ?_ part member
        obtain ⟨earlier, c, ends, unblank⟩ := longest.valid.ends_unblank
        intro d last
        rw [ends, ← List.append_assoc, List.getLast?_concat] at last
        cases last
        exact unblank

/-! ## The whole text -/

/-- The terminals have the languages of their regular expressions.  A token is read exactly when it
is the longest match, and none is read exactly when no terminal matches anything.  Scanning repeats
this up to the end of the text or up to a place without a match.  A text that is scanned to its end
is made up of tokens in order and of runs of blanks, and every byte belongs to one of these only. -/
theorem lexer_reads_longest_matches :
    (∀ terminal : Terminal, terminal.language = terminal.pattern.language) ∧
    (∀ (input : List Char) (token : Token),
      first? input = some token ↔ LongestMatch input token) ∧
    (∀ input : List Char, first? input = none ↔
      ¬ ∃ (terminal : Terminal) (matched : List Char), matched ∈ terminal.language ∧
        matched ≠ [] ∧ matched <+: input) ∧
    (∀ source : String, ∃ chars rest, source.toList = chars ++ rest ∧
      Splits rest 0 chars (scan source).lexemes ∧
      (rest = [] ∧ (scan source).invalid = none ∨
        Stuck rest ∧ (scan source).invalid = some (Text.byteLength chars))) ∧
    ∀ (source : String) (lexemes : List Lexeme), scan source = ⟨lexemes, none⟩ →
      InOrder lexemes ∧
      (∀ part ∈ partsFrom (Text.byteLength source.toList) 0 lexemes, part.Stands source.toList) ∧
      ∀ offset < Text.byteLength source.toList,
        ∃! part, part ∈ partsFrom (Text.byteLength source.toList) 0 lexemes ∧
          part.range.start ≤ offset ∧ offset < part.range.stop := by
  refine ⟨fun terminal => terminal.pattern_language.symm, fun _ _ => first_iff_longest_match,
    fun input => ?_, fun source => ?_, fun source lexemes scanned => ?_⟩
  · rw [first_none_iff_no_match]
    constructor
    · rintro noMatch ⟨terminal, matched, inside, _, begins⟩
      exact noMatch terminal matched inside begins
    · intro unmatched terminal matched inside begins
      exact unmatched ⟨terminal, matched, inside, matches_some inside, begins⟩
  · have scanned := splits_of_scan 0 source.toList
    simpa only [scan, Nat.zero_add] using scanned
  · have splits : Splits [] 0 source.toList lexemes := splitsInto_iff.mpr scanned
    refine ⟨splits.in_order, ?_, fun offset inside => ?_⟩
    · have begins : source.toList = [] ++ ([] ++ source.toList) := rfl
      exact parts_stand splits begins rfl rfl (by simp) (by simp)
    · have contiguous := contiguous_parts splits (Nat.le_refl 0)
      rw [Nat.zero_add] at contiguous
      exact contiguous.covers (Nat.zero_le offset) inside

/-- A name that goes on where a numeral would end, a numeral that is no name, and a string with a
character of two bytes, the second of which is a byte of the string and of nothing else. -/
theorem numeral_like_name_read :
    let source := "-1.5.2 -1 \"é\""
    let lexemes : List Lexeme := [⟨.name "-1.5.2", 0⟩, ⟨.numeral "-1", 7⟩, ⟨.quoted "é", 10⟩]
    let parts : List Part := [.token ⟨.name "-1.5.2", 0⟩, .blanks ⟨6, 7⟩, .token ⟨.numeral "-1", 7⟩,
      .blanks ⟨9, 10⟩, .token ⟨.quoted "é", 10⟩]
    scan source = ⟨lexemes, none⟩ ∧ InOrder lexemes ∧
      (∀ part ∈ parts, part.Stands source.toList) ∧
      (∃! part, part ∈ parts ∧ part.range.start ≤ 12 ∧ 12 < part.range.stop) ∧
      LongestMatch source.toList (.name "-1.5.2") := by
  intro source lexemes parts
  have scanned : scan source = ⟨lexemes, none⟩ := by
    simp only [source, lexemes]
    rfl
  have sameParts : partsFrom (Text.byteLength source.toList) 0 lexemes = parts := by
    simp only [source, lexemes, parts]
    rfl
  have inside : 12 < Text.byteLength source.toList := by
    simp only [source]
    decide
  have found : first? source.toList = some (.name "-1.5.2") := by
    simp only [source]
    rfl
  obtain ⟨_, longest, _, _, complete⟩ := lexer_reads_longest_matches
  obtain ⟨ordered, stand, covered⟩ := complete source lexemes scanned
  rw [sameParts] at stand covered
  exact ⟨scanned, ordered, stand, covered 12 inside, (longest _ _).mp found⟩

end TypedForms.Token
