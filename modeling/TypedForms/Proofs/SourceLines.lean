import Mathlib.Data.List.Infix
import TypedForms.Proofs.TokenSpelling
import TypedForms.Source.Position

/-! Lines and columns of a text.

The point after a piece of text is given by the newlines in it and the bytes
since the last of them.  An offset inside the text is located at the point after
what stands before it.  An offset beyond the end is located after the text less
the line breaks at the end of its last line, so it may come before offsets that
lie in these breaks, but never before the end of a character that is no break.
-/
namespace TypedForms

open Token (byteLength_append byteLength_pos)

namespace Text

/-- What the text has of the line that it ends in. -/
def lastLine (chars : List Char) : List Char :=
  (chars.reverse.takeWhile (· != '\n')).reverse

/-- The text consists of complete lines. -/
def Closed (chars : List Char) : Prop :=
  ∀ c ∈ chars.getLast?, c = '\n'

/-- The characters that do not count at the end of the last line. -/
def isBreak (c : Char) : Bool :=
  c == '\r' || c == '\n'

/-- The text is empty or ends in a character that is no break. -/
def EndsPlain (chars : List Char) : Prop :=
  ∀ c ∈ chars.getLast?, isBreak c = false

theorem EndsPlain.no_breaks (plain : EndsPlain (stem ++ breaks))
    (broken : ∀ c ∈ breaks, isBreak c = true) : breaks = [] := by
  rcases List.eq_nil_or_concat' breaks with empty | ⟨others, c, rfl⟩
  · exact empty
  · have last := plain c (by simp)
    rw [broken c (by simp)] at last
    cases last

/-- A beginning that ends in no break does not reach into the breaks at the end. -/
theorem EndsPlain.prefix_of_breaks (plain : EndsPlain left)
    (broken : ∀ c ∈ breaks, isBreak c = true) (inside : left <+: stem ++ breaks) :
    left <+: stem := by
  rcases List.prefix_or_prefix_of_prefix inside (List.prefix_append stem breaks) with
    inStem | ⟨more, rfl⟩
  · exact inStem
  · have within : more <+: breaks := (List.prefix_append_right_inj _).mp inside
    rw [plain.no_breaks fun c member => broken c (within.subset member), List.append_nil]

/-! ## The line that a text ends in -/

theorem lastLine_unbroken (chars : List Char) : '\n' ∉ lastLine chars := by
  intro member
  rw [lastLine, List.mem_reverse] at member
  have := Token.takeWhile_inside _ _ _ member
  simp at this

/-- A text consists of complete lines and the line that it ends in. -/
theorem line_cut (chars : List Char) :
    ∃ earlier, chars = earlier ++ lastLine chars ∧ Closed earlier := by
  refine ⟨(chars.reverse.dropWhile (· != '\n')).reverse, ?_, ?_⟩
  · rw [lastLine, ← List.reverse_append, List.takeWhile_append_dropWhile, List.reverse_reverse]
  · intro c last
    rw [List.getLast?_reverse] at last
    have stopped := List.head?_dropWhile_not (· != '\n') chars.reverse
    rw [last] at stopped
    simpa using stopped

theorem lastLine_closed (closed : Closed earlier) (unbroken : '\n' ∉ line) :
    lastLine (earlier ++ line) = line := by
  have inside : ∀ c ∈ line.reverse, (c != '\n') = true := by
    intro c member
    rw [List.mem_reverse] at member
    simpa using ne_of_mem_of_not_mem member unbroken
  have stops : earlier.reverse.takeWhile (· != '\n') = [] := by
    cases reversed : earlier.reverse with
    | nil => rfl
    | cons c more =>
      have newline : c = '\n' := closed c (by rw [← List.head?_reverse, reversed]; rfl)
      simp [newline]
  rw [lastLine, List.reverse_append, List.takeWhile_append_of_pos inside, stops, List.append_nil,
    List.reverse_reverse]

theorem lastLine_append (unbroken : '\n' ∉ more) :
    lastLine (chars ++ more) = lastLine chars ++ more := by
  obtain ⟨earlier, same, closed⟩ := line_cut chars
  have both : '\n' ∉ lastLine chars ++ more := by
    simp [lastLine_unbroken chars, unbroken]
  conv => lhs; rw [same, List.append_assoc]
  exact lastLine_closed closed both

theorem count_line {earlier line : List Char} (unbroken : '\n' ∉ line) :
    (earlier ++ line).count '\n' = earlier.count '\n' := by
  rw [List.count_append, List.count_eq_zero.mpr unbroken, Nat.add_zero]

/-! ## Bytes and characters -/

theorem byteLength_le_of_prefix (inside : left <+: right) : byteLength left ≤ byteLength right := by
  obtain ⟨more, rfl⟩ := inside
  rw [byteLength_append]
  omega

/-- Characters take at least a byte, and bytes count them where each takes just one. -/
theorem byteLength_eq_length_iff (chars : List Char) :
    chars.length ≤ byteLength chars ∧
      (byteLength chars = chars.length ↔ ∀ c ∈ chars, c.utf8Size = 1) := by
  induction chars with
  | nil => simp [byteLength]
  | cons c chars ih =>
    obtain ⟨bound, same⟩ := ih
    have := c.utf8Size_pos
    rw [byteLength, List.length_cons, List.forall_mem_cons, ← same]
    omega

/-- Of two beginnings of a text the one with fewer bytes is a beginning of the other. -/
theorem prefix_of_byteLength_le (first : left <+: whole) (second : right <+: whole)
    (bound : byteLength left ≤ byteLength right) : left <+: right := by
  rcases List.prefix_or_prefix_of_prefix first second with inside | ⟨more, rfl⟩
  · exact inside
  · have empty : more = [] := by
      by_contra nonempty
      have := byteLength_pos nonempty
      rw [byteLength_append] at bound
      omega
    simp [empty]

/-- A beginning that does not reach the end of a character ends before it. -/
theorem prefix_before (inside : left <+: before ++ c :: after)
    (bound : byteLength left < byteLength before + c.utf8Size) : left <+: before := by
  have upTo : before ++ [c] <+: before ++ c :: after := ⟨after, by simp⟩
  have size : byteLength (before ++ [c]) = byteLength before + c.utf8Size := by
    rw [byteLength_append]
    rfl
  have within := prefix_of_byteLength_le inside upTo (by omega)
  rcases List.prefix_concat_iff.mp within with rfl | shorter
  · omega
  · exact shorter

/-- Every offset inside a text lies in one of its characters. -/
theorem char_at {chars : List Char} (inside : offset < byteLength chars) :
    ∃ before c after, chars = before ++ c :: after ∧ byteLength before ≤ offset ∧
      offset < byteLength before + c.utf8Size := by
  induction chars generalizing offset with
  | nil => simp [byteLength] at inside
  | cons c chars ih =>
    rw [byteLength] at inside
    by_cases here : offset < c.utf8Size
    · exact ⟨[], c, chars, rfl, Nat.zero_le _, by simpa [byteLength] using here⟩
    · have later : offset - c.utf8Size < byteLength chars := by omega
      obtain ⟨before, d, after, rfl, lower, upper⟩ := ih later
      refine ⟨c :: before, d, after, rfl, ?_, ?_⟩
      · rw [byteLength]
        omega
      · rw [byteLength]
        omega

/-! ## Segments -/

theorem segments_cons {segment : List Char} (other : c ≠ '\n')
    (next : segments rest = segment :: later) :
    segments (c :: rest) = (c :: segment) :: later := by
  simp [segments, other, next]

theorem segments_head (c : Char) (rest : List Char) :
    ∃ more later, segments (c :: rest) = (c :: more) :: later := by
  by_cases newline : c = '\n'
  · exact ⟨[], segments rest, by simp [segments, newline]⟩
  · cases others : segments rest with
    | nil => exact ⟨[], [], by simp [segments, newline, others]⟩
    | cons segment later => exact ⟨segment, later, segments_cons newline others⟩

theorem flatten_segments (chars : List Char) : (segments chars).flatten = chars := by
  induction chars with
  | nil => rfl
  | cons c chars ih =>
    by_cases newline : c = '\n'
    · simp [segments, newline, ih]
    · cases others : segments chars with
      | nil => simp_all [segments]
      | cons segment later => simp_all [segments]

private theorem Closed.tail (closed : Closed (c :: earlier)) : Closed earlier := by
  cases earlier with
  | nil => exact nofun
  | cons d earlier =>
    rw [Closed, List.getLast?_cons_cons] at closed
    exact closed

/-- Complete lines are cut off before the rest of the text is looked at. -/
theorem segments_closed (closed : Closed earlier) (rest : List Char) :
    segments (earlier ++ rest) = segments earlier ++ segments rest ∧
      (segments earlier).length = earlier.count '\n' := by
  induction earlier with
  | nil => exact ⟨rfl, rfl⟩
  | cons c earlier ih =>
    obtain ⟨joined, counted⟩ := ih closed.tail
    by_cases newline : c = '\n'
    · simp [segments, newline, joined, counted]
    · cases earlier with
      | nil => exact absurd (closed c rfl) newline
      | cons d earlier =>
        obtain ⟨more, later, first⟩ := segments_head d earlier
        rw [first, List.cons_append] at joined
        have uncounted : (c :: d :: earlier).count '\n' = (d :: earlier).count '\n' :=
          List.count_cons_of_ne newline
        rw [uncounted, ← counted, first, segments_cons newline first]
        exact ⟨segments_cons newline joined, rfl⟩

private theorem segments_line {segment : List Char} (unbroken : '\n' ∉ line)
    (next : segments rest = segment :: later) :
    segments (line ++ rest) = (line ++ segment) :: later := by
  induction line with
  | nil => exact next
  | cons c line ih =>
    rw [List.mem_cons, not_or] at unbroken
    exact segments_cons (Ne.symm unbroken.1) (ih unbroken.2)

/-- The breaks at the end of a line are taken away, all of them and nothing else. -/
theorem breaks_cut (line : List Char) :
    ∃ breaks, line = withoutTrailingBreaks line ++ breaks ∧ (∀ c ∈ breaks, isBreak c = true) ∧
      EndsPlain (withoutTrailingBreaks line) := by
  have trimmed : withoutTrailingBreaks line = (line.reverse.dropWhile isBreak).reverse := rfl
  rw [trimmed]
  refine ⟨(line.reverse.takeWhile isBreak).reverse, ?_, ?_, ?_⟩
  · rw [← List.reverse_append, List.takeWhile_append_dropWhile, List.reverse_reverse]
  · intro c member
    rw [List.mem_reverse] at member
    exact Token.takeWhile_inside isBreak _ c member
  · intro c last
    rw [List.getLast?_reverse] at last
    have stopped := List.head?_dropWhile_not isBreak line.reverse
    rw [last] at stopped
    simpa using stopped

/-- A line without its breaks is unbroken: when nothing is taken away its last character is
plain. -/
theorem trimmed_unbroken (unbroken : '\n' ∉ line) (c : Char) :
    '\n' ∉ withoutTrailingBreaks (line ++ [c]) := by
  obtain ⟨breaks, same, _, plain⟩ := breaks_cut (line ++ [c])
  intro member
  rcases List.eq_nil_or_concat' breaks with rfl | ⟨others, d, rfl⟩
  · rw [List.append_nil] at same
    rw [← same] at plain member
    have newline : c = '\n' := by simpa [unbroken, eq_comm] using member
    have := plain c (by simp)
    exact absurd this (by simp [newline, isBreak])
  · rw [← List.append_assoc] at same
    rw [(List.append_inj' same rfl).1] at unbroken
    exact unbroken (List.mem_append_left _ member)

/-- The segments of a text around one of its characters. -/
theorem segments_at (left : List Char) (next : segments (c :: right) = (c :: more) :: later) :
    ∃ earlier, segments (left ++ c :: right) = earlier ++ (lastLine left ++ c :: more) :: later ∧
      earlier.length = left.count '\n' ∧ earlier.flatten ++ lastLine left = left ∧
      Closed earlier.flatten := by
  obtain ⟨earlier, same, closed⟩ := line_cut left
  have unbroken := lastLine_unbroken left
  obtain ⟨joined, counted⟩ := segments_closed closed (lastLine left ++ c :: right)
  refine ⟨segments earlier, ?_, ?_, ?_, ?_⟩
  · conv => lhs; rw [same, List.append_assoc]
    rw [joined, segments_line unbroken next]
  · conv => rhs; rw [same, count_line unbroken]
    exact counted
  · rw [flatten_segments, ← same]
  · rwa [flatten_segments]

/-- A quoted line lacks at most the newline and the carriage return that end it. -/
theorem terminator_cut (segment : List Char) :
    ∃ ending, segment = withoutTerminator segment ++ ending ∧
      (ending = [] ∨ ending = ['\n'] ∨ ending = ['\r', '\n']) := by
  unfold withoutTerminator
  split
  next rest reversed =>
    refine ⟨['\r', '\n'], ?_, .inr (.inr rfl)⟩
    rw [← List.reverse_reverse segment, reversed]
    simp
  next rest _ reversed =>
    refine ⟨['\n'], ?_, .inr (.inl rfl)⟩
    rw [← List.reverse_reverse segment, reversed]
    simp
  next => exact ⟨[], (List.append_nil _).symm, .inl rfl⟩

/-- The quoted line of a character that is no newline begins with all that stands before it, because
what is cut off at the end of a line is a newline and a carriage return right before it. -/
theorem line_at (left : List Char) (other : c ≠ '\n') (right : List Char) :
    ∃ line, (lines (left ++ c :: right))[left.count '\n']? = some line ∧
      lastLine left <+: line := by
  obtain ⟨more, later, next⟩ := segments_head c right
  obtain ⟨earlier, cut, counted, _⟩ := segments_at left next
  refine ⟨withoutTerminator (lastLine left ++ c :: more), ?_, ?_⟩
  · rw [lines, cut, ← counted]
    simp
  · obtain ⟨ending, same, shape⟩ := terminator_cut (lastLine left ++ c :: more)
    rcases List.prefix_or_prefix_of_prefix ⟨_, rfl⟩ ⟨_, same.symm⟩ with inside | ⟨lost, shorter⟩
    · exact inside
    · have tail : ending = lost ++ c :: more := by
        conv at same => lhs; rw [← shorter, List.append_assoc]
        exact (List.append_cancel_left same).symm
      cases lost with
      | nil =>
        rw [List.append_nil] at shorter
        rw [shorter]
      | cons d lost =>
        rcases shape with rfl | rfl | rfl
        · cases tail
        · simp at tail
        · cases lost with
          | nil =>
            simp only [List.cons_append, List.nil_append, List.cons.injEq] at tail
            exact absurd tail.2.1.symm other
          | cons e lost => simp at tail

/-- The character in or right after which an offset lies. -/
theorem same_char (first : whole = left ++ c :: right) (second : whole = before ++ d :: after)
    (lower : byteLength left < offset) (upper : offset ≤ byteLength left + c.utf8Size)
    (lowerToo : byteLength before < offset) (upperToo : offset ≤ byteLength before + d.utf8Size) :
    c = d := by
  have inside : left <+: before := prefix_before ⟨c :: right, first ▸ second⟩ (by omega)
  have around : before <+: left := prefix_before ⟨d :: after, second ▸ first⟩ (by omega)
  have same : left = before := inside.eq_of_length_le around.length_le
  rw [first, same, List.append_cancel_left_eq] at second
  exact (List.cons.inj second).1

end Text

namespace Point

/-- The point right after the text, when it stands at the beginning of the source. -/
def after (chars : List Char) : Point :=
  ⟨chars.count '\n', Text.byteLength (Text.lastLine chars)⟩

/-- The first point is the second or comes before it, by lines and then by columns. -/
def AtMost (first second : Point) : Prop :=
  first.line < second.line ∨ first.line = second.line ∧ first.column ≤ second.column

open Text

theorem AtMost.refl (point : Point) : point.AtMost point :=
  .inr ⟨rfl, Nat.le_refl _⟩

theorem after_closed {line : List Char} (closed : Closed earlier) (unbroken : '\n' ∉ line) :
    after (earlier ++ line) = ⟨earlier.count '\n', byteLength line⟩ := by
  rw [after, count_line unbroken, lastLine_closed closed unbroken]

/-- Points after longer texts come later; `extra` are bytes of a character that follows. -/
theorem after_atMost (inside : left <+: right) (extra : Nat) :
    (after left).AtMost ⟨right.count '\n', byteLength (lastLine right) + extra⟩ := by
  obtain ⟨more, rfl⟩ := inside
  by_cases unbroken : '\n' ∉ more
  · refine .inr ⟨(count_line unbroken).symm, ?_⟩
    rw [lastLine_append unbroken, byteLength_append, Nat.add_assoc]
    exact Nat.le_add_right _ _
  · refine .inl ?_
    have := List.count_pos_iff.mpr (not_not.mp unbroken)
    rw [List.count_append]
    exact Nat.lt_add_of_pos_right this

/-! ## Locating -/

theorem locateIn_found {line : Nat} {earlier : List (List Char)} {segment : List Char}
    (lower : byteLength earlier.flatten ≤ offset)
    (upper : offset < byteLength earlier.flatten + byteLength segment) :
    locateIn line last (earlier ++ segment :: later) offset =
      ⟨line + earlier.length, offset - byteLength earlier.flatten⟩ := by
  induction earlier generalizing line last offset with
  | nil =>
    have here : offset < byteLength segment := by simpa [byteLength] using upper
    simp [locateIn, here, byteLength]
  | cons first earlier ih =>
    rw [List.flatten_cons, byteLength_append] at lower upper ⊢
    have passed : ¬ offset < byteLength first := by omega
    rw [List.cons_append, locateIn, if_neg passed, ih (by omega) (by omega), List.length_cons,
      Nat.sub_sub]
    congr 1
    omega

theorem locateIn_beyond {line : Nat} {earlier : List (List Char)} {segment : List Char}
    (beyond : byteLength (earlier ++ [segment]).flatten ≤ offset) :
    locateIn line last (earlier ++ [segment]) offset =
      ⟨line + earlier.length, byteLength (withoutTrailingBreaks segment)⟩ := by
  induction earlier generalizing line last offset with
  | nil =>
    have passed : ¬ offset < byteLength segment := by simpa using beyond
    simp [locateIn, passed]
  | cons first earlier ih =>
    rw [List.cons_append, List.flatten_cons, byteLength_append] at beyond
    have passed : ¬ offset < byteLength first := by omega
    rw [List.cons_append, locateIn, if_neg passed, ih (by omega), List.length_cons]
    congr 1
    omega

theorem locateIn_line {first : Nat} {segments : List (List Char)} (nonempty : segments ≠ []) :
    (locateIn first last segments offset).line < first + segments.length := by
  induction segments generalizing first last offset with
  | nil => exact absurd rfl nonempty
  | cons segment later ih =>
    rw [locateIn, List.length_cons]
    split
    · simp only
      omega
    · cases later with
      | nil => simp [locateIn]
      | cons next later =>
        have bound := @ih ⟨first, byteLength (withoutTrailingBreaks segment)⟩
          (offset - byteLength segment) (first + 1) (List.cons_ne_nil _ _)
        omega

variable {source : String}

/-- Every offset is located on one of the lines, if there are any. -/
theorem locate_line_lt (nonempty : source.toList ≠ []) (offset : Nat) :
    (locate source offset).line < (lines source.toList).length := by
  obtain ⟨c, rest, same⟩ := List.exists_cons_of_ne_nil nonempty
  obtain ⟨more, later, first⟩ := segments_head c rest
  have bound := @locateIn_line ⟨0, 0⟩ offset 0 (segments source.toList) (by simp [same, first])
  rwa [Nat.zero_add, ← List.length_map withoutTerminator] at bound

/-- An offset in a character is located by what stands before the character. -/
theorem locate_within (here : source.toList = left ++ c :: right)
    (lower : byteLength left ≤ offset) (upper : offset < byteLength left + c.utf8Size) :
    locate source offset =
      ⟨left.count '\n', byteLength (lastLine left) + (offset - byteLength left)⟩ := by
  obtain ⟨more, later, next⟩ := segments_head c right
  obtain ⟨earlier, cut, counted, joined, _⟩ := segments_at left next
  have bytes : byteLength earlier.flatten + byteLength (lastLine left) = byteLength left := by
    rw [← byteLength_append, joined]
  have size : byteLength (lastLine left ++ c :: more) =
      byteLength (lastLine left) + (c.utf8Size + byteLength more) := by
    rw [byteLength_append, byteLength]
  rw [locate, here, cut, locateIn_found (by omega) (by omega), counted, Nat.zero_add]
  congr 1
  omega

theorem locate_start (here : source.toList = left ++ c :: right) :
    locate source (byteLength left) = after left := by
  rw [locate_within here (Nat.le_refl _) (Nat.lt_add_of_pos_right c.utf8Size_pos), Nat.sub_self]
  rfl

/-- The end of a beginning of the text, when there is more of the text. -/
theorem locate_before (here : source.toList = left ++ right) (nonempty : right ≠ []) :
    locate source (byteLength left) = after left := by
  obtain ⟨c, later, rfl⟩ := List.exists_cons_of_ne_nil nonempty
  exact locate_start here

/-- An offset beyond the text is located after what is left of the text when the breaks at the end
of its last line are taken away. -/
theorem locate_past (beyond : byteLength source.toList ≤ offset) :
    ∃ stem breaks, source.toList = stem ++ breaks ∧ (∀ c ∈ breaks, isBreak c = true) ∧
      (∀ c ∈ stem.getLast?, c ≠ '\r') ∧ locate source offset = after stem := by
  rcases List.eq_nil_or_concat' source.toList with empty | ⟨left, c, here⟩
  · refine ⟨[], [], empty, nofun, nofun, ?_⟩
    rw [locate, empty]
    rfl
  · have alone : segments [c] = (c :: []) :: [] := by
      by_cases newline : c = '\n' <;> simp [segments, newline]
    obtain ⟨earlier, cut, counted, joined, closed⟩ := segments_at left alone
    have whole : (earlier ++ [lastLine left ++ [c]]).flatten = source.toList := by
      rw [← cut, flatten_segments, here]
    have lines : left.count '\n' = earlier.flatten.count '\n' := by
      conv => lhs; rw [← joined]
      exact count_line (lastLine_unbroken left)
    rw [locate, here, cut, locateIn_beyond (by rwa [whole]), counted, Nat.zero_add, lines]
    obtain ⟨breaks, line, broken, plain⟩ := breaks_cut (lastLine left ++ [c])
    have unbroken := trimmed_unbroken (lastLine_unbroken left) c
    refine ⟨earlier.flatten ++ withoutTrailingBreaks (lastLine left ++ [c]), breaks, ?_, broken, ?_,
      (after_closed closed unbroken).symm⟩
    · rw [List.append_assoc, ← line, ← List.append_assoc, joined]
    · intro d last
      rcases List.eq_nil_or_concat' (withoutTrailingBreaks (lastLine left ++ [c])) with
        nothing | ⟨stem, e, trimmed⟩
      · rw [nothing, List.append_nil] at last
        rw [closed d last]
        decide
      · rw [trimmed, ← List.append_assoc, List.getLast?_concat] at last
        cases last
        have := plain d (by simp [trimmed])
        rintro rfl
        exact absurd this (by decide)

/-- Where a text ends in no break, nothing is taken away. -/
theorem locate_end (plain : EndsPlain source.toList) (beyond : byteLength source.toList ≤ offset) :
    locate source offset = after source.toList := by
  obtain ⟨stem, breaks, whole, broken, _, located⟩ := locate_past beyond
  rw [whole] at plain
  rw [located, whole, plain.no_breaks broken, List.append_nil]

/-- A carriage return at the end of a text is taken away. -/
theorem locate_past_return (here : source.toList = left ++ ['\r']) (plain : EndsPlain left)
    (beyond : byteLength source.toList ≤ offset) : locate source offset = after left := by
  obtain ⟨stem, breaks, whole, broken, kept, located⟩ := locate_past beyond
  have around : left <+: stem :=
    plain.prefix_of_breaks broken ⟨['\r'], by rw [← here, whole]⟩
  have within : stem <+: left ++ ['\r'] := ⟨breaks, by rw [← whole, here]⟩
  rcases List.prefix_concat_iff.mp within with all | inside
  · exact absurd rfl (kept '\r' (by simp [all]))
  · rw [located, inside.eq_of_length_le around.length_le]

/-- An offset right after a character that is no break is located on the line of the character. -/
theorem locate_stop (here : source.toList = left ++ c :: right) (plain : isBreak c = false)
    (lower : byteLength left < offset) (upper : offset ≤ byteLength left + c.utf8Size) :
    locate source offset =
      ⟨left.count '\n', byteLength (lastLine left) + (offset - byteLength left)⟩ := by
  by_cases inside : offset < byteLength left + c.utf8Size
  · exact locate_within here (Nat.le_of_lt lower) inside
  · have stop : offset = byteLength (left ++ [c]) := by
      rw [byteLength_append]
      simp only [byteLength]
      omega
    have unbroken : '\n' ∉ [c] := by
      rw [List.mem_singleton]
      rintro rfl
      cases plain
    have located : locate source offset = after (left ++ [c]) := by
      cases right with
      | nil =>
        rw [← here]
        apply locate_end
        · intro d last
          rw [here, List.getLast?_concat] at last
          cases last
          exact plain
        · rw [here, stop]
      | cons d right =>
        have next : source.toList = (left ++ [c]) ++ d :: right := by simp [here]
        rw [stop, locate_start next]
    rw [located, after, count_line unbroken, lastLine_append unbroken, byteLength_append, stop,
      byteLength_append]
    congr 1
    omega

/-- No later offset is located before the end of a plain beginning of the text. -/
theorem locate_atMost (here : source.toList = left ++ right) (plain : EndsPlain left)
    (lower : byteLength left ≤ offset) :
    (locate source (byteLength left)).AtMost (locate source offset) := by
  cases right with
  | nil =>
    rw [List.append_nil] at here
    rw [← here] at plain lower ⊢
    rw [locate_end plain (Nat.le_refl _), locate_end plain lower]
    exact .refl _
  | cons c right =>
    rw [locate_start here]
    by_cases inside : offset < byteLength source.toList
    · obtain ⟨before, d, rest, whole, lowerHere, upperHere⟩ := char_at inside
      rw [locate_within whole lowerHere upperHere]
      have inText : left <+: before ++ d :: rest := ⟨c :: right, by rw [← here, whole]⟩
      exact after_atMost (prefix_before inText (by omega)) _
    · obtain ⟨stem, breaks, whole, broken, _, located⟩ := locate_past (Nat.le_of_not_lt inside)
      rw [located]
      refine after_atMost ?_ 0
      exact plain.prefix_of_breaks broken ⟨c :: right, by rw [← here, whole]⟩

end Point

end TypedForms
