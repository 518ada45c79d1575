import TypedForms.Proofs.DiagnosticPlaces

/-! What the report of an error shows.

The report quotes the lines from the one in which the range begins to the one in
which it ends, and underlines a range inside one line.  Ranges that end in no line
break are located exactly, so the lines are those of the range and there are
carets exactly when the range has no newline in it.  Spaces and carets stand for
bytes, which is why they line up with the quoted characters only where each of
these takes one byte.  Where they are too many to be printed the report breaks off
below the quoted lines.
-/
namespace TypedForms

open Token (byteLength_append byteLength_pos)
open Text (byteLength lastLine isBreak)

namespace Printed

@[simp] theorem whole_append_whole (text more : String) :
    whole text ++ whole more = whole (text ++ more) :=
  rfl

@[simp] theorem whole_append_brokenOff (text more : String) :
    whole text ++ brokenOff more = brokenOff (text ++ more) :=
  rfl

@[simp] theorem brokenOff_append (text : String) (later : Printed) :
    brokenOff text ++ later = brokenOff text :=
  rfl

end Printed

namespace Diagnostic

/-- A line of the report: a label at the right end of three columns, a bar and a text. -/
def barred (label : String) (text : List Char) : String :=
  alignRight 3 label ++ " │ " ++ String.ofList text ++ "\n"

/-- The lines from one to another, both included, behind their numbers, which count from one. -/
def quotation (lines : List (List Char)) (first last : Nat) : String :=
  String.join ((List.range' first (last + 1 - first)).map fun number =>
    barred (toString (number + 1)) (lines.getD number []))

/-- A line of spaces and carets under a quoted line. -/
def caretLine (spaces carets : Nat) : String :=
  barred "" (List.replicate spaces ' ' ++ List.replicate carets '^')

/-- Spaces and carets as far as they can be printed. -/
def marks (spaces carets : Nat) : Printed :=
  if spaces ≤ widestField ∧ carets ≤ widestField then .whole (caretLine spaces carets)
  else .brokenOff ""

/-- What stands above the quoted lines. -/
def heading (diagnostic : Diagnostic) (source file : String) : String :=
  "\n[error]: " ++ diagnostic.message ++ "\n\n    ┌─> " ++ file ++ ":" ++
    (Point.locate source diagnostic.range.start).text ++ "\n    │\n"

/-! ## The parts of the report -/

private theorem gutter_barred (label : String) (text : List Char) :
    gutter label ++ " " ++ String.ofList text ++ "\n" = barred label text := by
  have bar : " │" ++ " " = " │ " := rfl
  simp only [gutter, barred, String.append_assoc, ← bar]

theorem quoted_eq {first last : Nat} (bound : last < (Text.lines source.toList).length) :
    String.join ((quoted source first last).map quotedText) =
      quotation (Text.lines source.toList) first last := by
  rw [quotation]
  congr 1
  apply List.ext_getElem
  · simp [quoted]
    omega
  · intro index within _
    have inside : first + index < (Text.lines source.toList).length := by
      simp [quoted] at within
      omega
    simp [quoted, quotedText, gutter_barred, List.getElem?_eq_getElem inside]

theorem underline_eq (first last : Point) : underline first last =
    if first.line = last.line ∧ first.column < last.column then
      marks first.column (last.column - first.column) else .whole "" := by
  rw [underline, marks, caretLine, ← gutter_barred, String.ofList_append]
  simp only [String.append_assoc]

theorem render_eq {diagnostic : Diagnostic} (nonempty : source.toList ≠ [])
    (starts : Point.locate source diagnostic.range.start = first)
    (stops : Point.locate source diagnostic.range.stop = last) (file : String) :
    diagnostic.render source file = .whole (diagnostic.heading source file ++
      quotation (Text.lines source.toList) first.line last.line) ++ underline first last ++
      .whole "    │\n" := by
  have bound : last.line < (Text.lines source.toList).length := by
    rw [← stops]
    exact Point.locate_line_lt nonempty _
  have quotes := @quoted_eq source first.line last.line bound
  have left : "\n\n" ++ (alignRight 3 "" ++ " ┌─> ") = "\n\n    ┌─> " := by decide
  have right : "\n" ++ (gutter "" ++ "\n") = "\n    │\n" := by decide
  have bottom : gutter "" ++ "\n" = "    │\n" := by decide
  unfold render heading
  rw [starts, stops]
  dsimp only
  rw [quotes, ← left, ← right, ← bottom]
  simp only [String.append_assoc]

/-- What stands around carets that can be printed, and that nothing stands around others. -/
theorem around_marks (top bottom : String) (spaces carets : Nat) :
    .whole top ++ marks spaces carets ++ .whole bottom =
      if spaces ≤ widestField ∧ carets ≤ widestField then
        .whole (top ++ caretLine spaces carets ++ bottom) else .brokenOff top := by
  unfold marks
  split
  · rfl
  · simp

end Diagnostic

/-! ## Where a plain range is located -/

/-- A newline stands in the range. -/
def Range.HasNewline (source : String) (range : Range) : Prop :=
  ∃ left right, source.toList = left ++ '\n' :: right ∧ range.start ≤ byteLength left ∧
    byteLength left < range.stop

/-- Whether there is a newline in a plain range is decided before its last character. -/
theorem Range.hasNewline_iff {source : String} {range : Range}
    (whole : source.toList = before ++ (middle ++ c :: after))
    (begins : byteLength before = range.start) (plain : isBreak c = false)
    (lower : byteLength (before ++ middle) < range.stop)
    (upper : range.stop ≤ byteLength (before ++ middle) + c.utf8Size) :
    range.HasNewline source ↔ '\n' ∈ middle := by
  constructor
  · rintro ⟨left, right, cut, later, earlier⟩
    have same : left ++ '\n' :: right = (before ++ middle) ++ c :: after := by
      rw [← cut, whole, List.append_assoc]
    obtain ⟨between, rfl⟩ : before <+: left :=
      Text.prefix_of_byteLength_le ⟨_, whole.symm⟩ ⟨_, cut.symm⟩ (by omega)
    obtain ⟨beyond, rest⟩ : before ++ between <+: before ++ middle :=
      Text.prefix_before ⟨_, same⟩ (by omega)
    rw [← rest, List.append_assoc (before ++ between), List.append_cancel_left_eq] at same
    rw [List.append_assoc, List.append_cancel_left_eq] at rest
    cases beyond with
    | nil =>
      obtain ⟨rfl, _⟩ := List.cons.inj same
      cases plain
    | cons d beyond =>
      obtain ⟨rfl, _⟩ := List.cons.inj same
      simp [← rest]
  · intro member
    obtain ⟨first, second, rfl⟩ := List.append_of_mem member
    refine ⟨before ++ first, second ++ c :: after, by simp [whole], ?_, ?_⟩
    · rw [byteLength_append]
      omega
    · simp only [byteLength_append, byteLength] at lower ⊢
      omega

/-- A plain range begins after what stands before it, and ends on the same line, as many bytes
later as it is long, unless there is a newline in it. -/
theorem Range.Plain.located {source : String} {range : Range} (plain : range.Plain source) :
    ∃ before, before <+: source.toList ∧ byteLength before = range.start ∧
      range.start < range.stop ∧ Point.locate source range.start = Point.after before ∧
      (¬ range.HasNewline source → Point.locate source range.stop =
        ⟨before.count '\n', byteLength (lastLine before) + (range.stop - range.start)⟩) ∧
      (range.HasNewline source →
        before.count '\n' < (Point.locate source range.stop).line) := by
  obtain ⟨before, middle, c, after, whole, begins, visible, lower, upper⟩ := plain
  have inner : source.toList = (before ++ middle) ++ c :: after := by
    rw [whole, List.append_assoc]
  have newline := Range.hasNewline_iff whole begins visible lower upper
  have stop := Point.locate_stop inner visible lower upper
  rw [byteLength_append] at lower stop
  refine ⟨before, ⟨_, whole.symm⟩, begins, by omega, ?_, ?_, ?_⟩
  · rw [← begins]
    exact Point.locate_before whole (by simp)
  · intro unbroken
    rw [newline] at unbroken
    rw [stop, Text.count_line unbroken, Text.lastLine_append unbroken, byteLength_append]
    congr 1
    omega
  · intro broken
    have := List.count_pos_iff.mpr (newline.mp broken)
    rw [stop, List.count_append]
    exact Nat.lt_add_of_pos_right this

/-- A plain range does not end before it begins. -/
theorem Range.Plain.atMost {source : String} {range : Range} (plain : range.Plain source) :
    (Point.locate source range.start).AtMost (Point.locate source range.stop) := by
  obtain ⟨before, _, _, _, starts, alone, several⟩ := plain.located
  rw [starts]
  by_cases newline : range.HasNewline source
  · left
    exact several newline
  · right
    rw [alone newline]
    exact ⟨rfl, Nat.le_add_right _ _⟩

/-- The error about the end of the text does not end before it begins. -/
theorem Range.AtEnd.atMost {source : String} {range : Range} (ended : range.AtEnd source) :
    (Point.locate source range.start).AtMost (Point.locate source range.stop) := by
  obtain ⟨before, after, whole, plain, rfl⟩ := ended
  exact Point.locate_atMost whole plain (Nat.le_succ _)

namespace Diagnostic

/-- There are carets under a plain range exactly when there is no newline in it. -/
theorem underline_plain {source : String} {range : Range} (plain : range.Plain source) :
    ∃ before, before <+: source.toList ∧ byteLength before = range.start ∧
      range.start < range.stop ∧
      (¬ range.HasNewline source →
        underline (Point.locate source range.start) (Point.locate source range.stop) =
          marks (byteLength (lastLine before)) (range.stop - range.start)) ∧
      (range.HasNewline source →
        underline (Point.locate source range.start) (Point.locate source range.stop) =
          .whole "") := by
  obtain ⟨before, inside, begins, proper, starts, alone, several⟩ := plain.located
  refine ⟨before, inside, begins, proper, fun unbroken => ?_, fun newline => ?_⟩
  · rw [underline_eq, starts, alone unbroken, Point.after,
      if_pos ⟨rfl, Nat.lt_add_of_pos_right (by omega)⟩]
    simp only [Nat.add_sub_cancel_left]
  · have lower := several newline
    rw [underline_eq, starts, Point.after]
    apply if_neg
    rintro ⟨same, _⟩
    exact absurd same (Nat.ne_of_lt lower)

/-- There is nothing below the quoted lines, or a line of carets, or the report breaks off. -/
theorem around_underline (top bottom : String) (first last : Point) :
    (∃ lines, (lines = "" ∨ ∃ spaces carets, lines = caretLine spaces carets) ∧
      .whole top ++ underline first last ++ .whole bottom = .whole (top ++ lines ++ bottom)) ∨
    .whole top ++ underline first last ++ .whole bottom = .brokenOff top := by
  rw [underline_eq]
  split
  · rw [around_marks]
    split
    · exact .inl ⟨_, .inr ⟨_, _, rfl⟩, rfl⟩
    · exact .inr rfl
  · exact .inl ⟨"", .inl rfl, rfl⟩

/-- An error about a source text is located in order on lines that exist.  The report quotes exactly
these lines, in order and with their numbers, and ends there or goes on with at most one line of
carets.  Unless the error is about the end of the text, a range with a newline is not underlined,
and one without is, with a caret for each of its bytes after a space for each byte of the line
before it, if neither these nor those are more than can be printed.  If they are the report ends
with the quoted lines. -/
theorem reports_quote_and_underline {source : String} {error : Diagnostic}
    (nonempty : source ≠ "") (failed : typeOfSource source = .error error) :
    let first := Point.locate source error.range.start
    let last := Point.locate source error.range.stop
    let lines := Text.lines source.toList
    let top := fun file => error.heading source file ++ quotation lines first.line last.line
    first.AtMost last ∧ last.line < lines.length ∧
    (∀ file, (∃ below, (below = "" ∨ ∃ spaces carets, below = caretLine spaces carets) ∧
        error.render source file = .whole (top file ++ below ++ "    │\n")) ∨
      error.render source file = .brokenOff (top file)) ∧
    (error.message ≠ "unrecognized eof" →
      ∃ before, before <+: source.toList ∧ byteLength before = error.range.start ∧
        error.range.start < error.range.stop ∧
        let spaces := byteLength (lastLine before)
        let carets := error.range.stop - error.range.start
        (¬ error.range.HasNewline source → spaces ≤ widestField → carets ≤ widestField →
          ∀ file, error.render source file =
            .whole (top file ++ caretLine spaces carets ++ "    │\n")) ∧
        (¬ error.range.HasNewline source → widestField < spaces ∨ widestField < carets →
          ∀ file, error.render source file = .brokenOff (top file)) ∧
        (error.range.HasNewline source →
          ∀ file, error.render source file = .whole (top file ++ "    │\n"))) := by
  intro first last lines top
  have chars : source.toList ≠ [] := by simpa using nonempty
  have rendered : ∀ file, error.render source file =
      .whole (top file) ++ underline first last ++ .whole "    │\n" :=
    render_eq chars rfl rfl
  have placed := typeOfSource_placed failed
  refine ⟨?_, Point.locate_line_lt chars _, fun file => ?_, fun notEnded => ?_⟩
  · rcases placed with plain | ⟨_, ended⟩
    · exact plain.atMost
    · exact ended.atMost
  · rw [rendered]
    exact around_underline (top file) _ first last
  · rcases placed with plain | ⟨ended, _⟩
    · obtain ⟨before, inside, begins, proper, marked, unmarked⟩ := underline_plain plain
      refine ⟨before, inside, begins, proper, fun unbroken narrow few file => ?_,
        fun unbroken wide file => ?_, fun newline file => ?_⟩
      · rw [rendered, marked unbroken, around_marks, if_pos ⟨narrow, few⟩]
      · rw [rendered, marked unbroken, around_marks, if_neg (by omega)]
      · rw [rendered, unmarked newline]
        simp
    · exact absurd ended notEnded

/-- The range ends at the end of the text, on the second of two lines. -/
theorem last_line_underlined :
    let source := "1\r\n \"é\" y"
    let error : Diagnostic := ⟨"unbound variable 'y'", ⟨9, 10⟩⟩
    source ≠ "" ∧ typeOfSource source = .error error ∧ ¬ error.range.HasNewline source ∧
      ∃ before, before <+: source.toList ∧ byteLength before = 9 ∧
        byteLength (lastLine before) ≤ widestField ∧
        ∀ file, error.render source file = .whole (error.heading source file ++
          quotation (Text.lines source.toList) 1 1 ++ caretLine (byteLength (lastLine before)) 1 ++
          "    │\n") := by
  intro source error
  have nonempty : source ≠ "" := by
    simp only [source]
    decide
  have failed : typeOfSource source = .error error := by decide +kernel
  have starts : (Point.locate source error.range.start).line = 1 := by decide +kernel
  have stops : (Point.locate source error.range.stop).line = 1 := by decide +kernel
  have unbroken : ¬ error.range.HasNewline source := by
    have whole : source.toList = "1\r\n \"é\" ".toList ++ ([] ++ 'y' :: []) := by decide +kernel
    have newline : error.range.HasNewline source ↔ '\n' ∈ ([] : List Char) :=
      Range.hasNewline_iff whole (by decide) (by decide) (by decide) (by decide)
    simp [newline]
  obtain ⟨_, _, _, underlined⟩ := reports_quote_and_underline nonempty failed
  obtain ⟨before, inside, begins, _, marked, _⟩ := underlined (by decide)
  have narrow : byteLength (lastLine before) ≤ widestField := by
    have all : byteLength before = 9 := begins
    obtain ⟨earlier, line, _⟩ := Text.line_cut before
    rw [line, byteLength_append] at all
    simp only [widestField]
    omega
  refine ⟨nonempty, failed, unbroken, before, inside, begins, narrow, fun file => ?_⟩
  rw [marked unbroken narrow (by decide), starts, stops]
  rfl

/-- A name after spaces. -/
private def indented (spaces : Nat) : String :=
  String.ofList (List.replicate spaces ' ' ++ ['y'])

/-- The name is unbound, and its place is behind the spaces. -/
private theorem typeOfSource_indented (spaces : Nat) : typeOfSource (indented spaces) =
    .error ⟨"unbound variable 'y'", ⟨spaces, spaces + 1⟩⟩ := by
  have skipped : ∀ offset, Token.scanFrom offset 0 (List.replicate spaces ' ' ++ ['y']) =
      Token.scanFrom (offset + spaces) 0 ['y'] := by
    induction spaces with
    | zero => simp
    | succ spaces ih =>
      intro offset
      have blank : Text.isBlank ' ' = true := by decide
      have size : ' '.utf8Size = 1 := by decide
      rw [List.replicate_succ, List.cons_append, Token.scanFrom, if_pos blank, size, ih,
        Nat.add_assoc, Nat.add_comm 1]
  have scanned : Token.scan (indented spaces) = ⟨[⟨.name "y", spaces⟩], none⟩ := by
    have visible : Text.isBlank 'y' = false := by decide
    have token : Token.first? ['y'] = some (.name "y") := by decide
    rw [Token.scan, indented, String.toList_ofList, skipped]
    simp [Token.scanFrom, visible, token, Token.Scan.cons]
  have parsed : Program.parse (indented spaces) =
      .ok [.identifier ⟨spaces, spaces + 1⟩ "y"] := by
    have size : byteLength ['y'] = 1 := by decide
    have named : Expr.ofName ⟨spaces, spaces + 1⟩ "y" = .identifier ⟨spaces, spaces + 1⟩ "y" :=
      if_neg (by decide)
    simp [Program.parse, Parser.read, scanned, Parser.takeAll, Parser.take, OpenForm.carryOn,
      Parser.takePiece, OpenForm.place, Piece.ofToken?, OpenForm.fill, Parser.finishedProgram?,
      Lexeme.stop, Token.text, size, named]
  rw [typeOfSource, parsed]
  rfl

/-- A report that needs more spaces than can be printed ends with the quoted line. -/
private theorem render_indented (wide : widestField < spaces) :
    let error : Diagnostic := ⟨"unbound variable 'y'", ⟨spaces, spaces + 1⟩⟩
    ¬ error.range.HasNewline (indented spaces) ∧
      ∀ file, error.render (indented spaces) file =
        .brokenOff (error.heading (indented spaces) file ++
          quotation (Text.lines (indented spaces).toList) 0 0) := by
  intro error
  have noNewline : '\n' ∉ (indented spaces).toList := by simp [indented]
  have unbroken : ¬ error.range.HasNewline (indented spaces) := by
    rintro ⟨left, right, cut, _⟩
    exact noNewline (by simp [cut])
  have plain : error.range.Plain (indented spaces) := by
    rcases typeOfSource_placed (typeOfSource_indented spaces) with plain | ⟨ended, _⟩
    · exact plain
    · exact absurd ended (by simp)
  obtain ⟨before, ⟨after, whole⟩, begins, _, starts, alone, _⟩ := plain.located
  have inside : '\n' ∉ before := fun member => noNewline (by simp [← whole, member])
  have line : lastLine before = before := @Text.lastLine_append before [] inside
  have first : before.count '\n' = 0 := List.count_eq_zero.mpr inside
  have stops := alone unbroken
  have spaced : byteLength before = spaces := begins
  rw [Point.after, first, line, spaced] at starts
  rw [first, line, spaced] at stops
  refine ⟨unbroken, fun file => ?_⟩
  rw [render_eq (by simp [indented]) starts stops, underline_eq]
  simp only [true_and]
  rw [if_pos (by simp [error]), around_marks, if_neg (by omega)]

/-- After more spaces than can be printed there is no caret. -/
theorem indented_name_breaks_report :
    let source := String.ofList (List.replicate 65536 ' ' ++ ['y'])
    let error : Diagnostic := ⟨"unbound variable 'y'", ⟨65536, 65537⟩⟩
    typeOfSource source = .error error ∧ ¬ error.range.HasNewline source ∧
      ∀ file, error.render source file = .brokenOff (error.heading source file ++
        quotation (Text.lines source.toList) 0 0) :=
  ⟨typeOfSource_indented 65536, render_indented (by decide)⟩

/-! ## Bytes and characters -/

theorem caretLine_inj : caretLine spaces carets = caretLine others hats ↔
    spaces = others ∧ carets = hats := by
  constructor
  · intro same
    have chars := congrArg String.toList same
    simp only [caretLine, barred, String.toList_append, String.toList_ofList,
      List.append_cancel_left_eq, List.append_cancel_right_eq] at chars
    have blanks := congrArg (List.count ' ') chars
    have marked := congrArg (List.count '^') chars
    constructor
    · simpa [List.count_replicate] using blanks
    · simpa [List.count_replicate] using marked
  · rintro ⟨rfl, rfl⟩
    rfl

end Diagnostic

/-- The range lies within one line: after some complete lines and a part `before` of the next it
has bytes of the characters of `slice`, and of these only, and none of them is a newline. -/
structure Range.OnOneLine (source : String) (range : Range)
    (earlier before slice after : List Char) : Prop where
  whole : source.toList = earlier ++ (before ++ (slice ++ after))
  closed : Text.Closed earlier
  unbroken : '\n' ∉ before ++ slice
  begins : byteLength (earlier ++ before) = range.start
  reaches : byteLength (earlier ++ before ++ slice.dropLast) < range.stop
  ends : range.stop ≤ byteLength (earlier ++ before ++ slice)

namespace Range.OnOneLine

variable {source : String} {range : Range} {earlier before slice after : List Char}

/-- A range inside the text that begins between characters and has no newline in it lies within one
line. -/
theorem of_unbroken (whole : source.toList = left ++ right)
    (begins : byteLength left = range.start) (proper : range.start < range.stop)
    (within : range.stop ≤ byteLength source.toList) (unbroken : ¬ range.HasNewline source) :
    ∃ earlier before slice after, range.OnOneLine source earlier before slice after := by
  have inside : range.stop - 1 < byteLength source.toList := by omega
  obtain ⟨upTo, c, after, cut, lower, upper⟩ := Text.char_at inside
  obtain ⟨middle, rfl⟩ : left <+: upTo :=
    Text.prefix_before ⟨right, by rw [← whole, cut]⟩ (by omega)
  have noNewline : '\n' ∉ middle ++ [c] := by
    intro member
    obtain ⟨first, second, same⟩ := List.append_of_mem member
    have size := congrArg byteLength same
    simp only [byteLength_append, byteLength] at size
    have newlineSize := Char.utf8Size_pos '\n'
    have early : first <+: middle := Text.prefix_before ⟨'\n' :: second, same.symm⟩ (by omega)
    have bound := Text.byteLength_le_of_prefix early
    rw [byteLength_append] at lower
    refine unbroken ⟨left ++ first, second ++ after, ?_, ?_, ?_⟩
    · calc source.toList = left ++ (middle ++ [c]) ++ after := by simp [cut]
        _ = left ++ first ++ '\n' :: (second ++ after) := by simp [same]
    · rw [byteLength_append]
      omega
    · rw [byteLength_append]
      omega
  obtain ⟨earlier, line, closed⟩ := Text.line_cut left
  refine ⟨earlier, lastLine left, middle ++ [c], after, ?_, closed, ?_, ?_, ?_, ?_⟩
  · rw [← List.append_assoc, ← line, cut]
    simp
  · simp only [List.mem_append, not_or] at noNewline ⊢
    exact ⟨Text.lastLine_unbroken left, noNewline⟩
  · rw [← line, begins]
  · rw [← line, List.dropLast_concat]
    omega
  · rw [← line, ← List.append_assoc, byteLength_append _ [c]]
    simp only [byteLength]
    omega

theorem nonempty (here : range.OnOneLine source earlier before slice after) : slice ≠ [] := by
  rintro rfl
  exact absurd here.reaches (Nat.not_lt.mpr here.ends)

theorem before_unbroken (here : range.OnOneLine source earlier before slice after) :
    '\n' ∉ before := by
  intro member
  exact here.unbroken (List.mem_append_left _ member)

theorem locate_start (here : range.OnOneLine source earlier before slice after) :
    Point.locate source range.start = ⟨earlier.count '\n', byteLength before⟩ := by
  have whole : source.toList = (earlier ++ before) ++ (slice ++ after) := by
    rw [here.whole, List.append_assoc]
  rw [← here.begins, Point.locate_before whole (by simp [here.nonempty])]
  exact Point.after_closed here.closed here.before_unbroken

/-- The range ends in or right after its last character. -/
private theorem locate_stop_plain {middle : List Char}
    (here : range.OnOneLine source earlier before (middle ++ [c]) after)
    (plain : isBreak c = false) : Point.locate source range.stop =
      ⟨earlier.count '\n', byteLength before + (range.stop - range.start)⟩ := by
  have whole : source.toList = (earlier ++ (before ++ middle)) ++ c :: after := by
    simp [here.whole]
  have unbroken : '\n' ∉ before ++ middle := by
    have := here.unbroken
    simp_all
  have begins := here.begins
  have reaches := here.reaches
  have ends := here.ends
  simp only [List.dropLast_concat, byteLength_append, byteLength] at begins reaches ends
  rw [Point.locate_stop whole plain (by simp only [byteLength_append]; omega)
    (by simp only [byteLength_append]; omega), Text.count_line unbroken,
    Text.lastLine_closed here.closed unbroken]
  congr 1
  simp only [byteLength_append]
  omega

/-- A range that ends in a line break is that of a carriage return after the last token. -/
private theorem break_after_token {middle : List Char}
    (here : range.OnOneLine source earlier before (middle ++ [c]) after)
    (placed : range.Plain source ∨ range.AtEnd source) (broken : isBreak c = true) :
    middle = [] ∧ c = '\r' ∧ Text.EndsPlain (earlier ++ before) ∧
      range.stop = byteLength (earlier ++ before) + 1 := by
  have whole : source.toList = (earlier ++ before ++ middle) ++ c :: after := by
    simp [here.whole]
  have begins := here.begins
  have reaches := here.reaches
  have ends := here.ends
  rw [List.dropLast_concat] at reaches
  rcases placed with ⟨left, inner, d, right, cut, _, plain, lower, upper⟩ |
    ⟨left, right, cut, plain, rfl⟩
  · have same : c = d := by
      refine Text.same_char whole (cut.trans (List.append_assoc _ _ _).symm) reaches ?_ lower upper
      rw [← List.append_assoc, byteLength_append _ [c]] at ends
      exact ends
    rw [← same, broken] at plain
    cases plain
  · have same : left = earlier ++ before := by
      have wholeToo : source.toList = (earlier ++ before) ++ (middle ++ c :: after) := by
        rw [whole, List.append_assoc]
      have inside := Text.prefix_of_byteLength_le ⟨_, cut.symm⟩ ⟨_, wholeToo.symm⟩
        (Nat.le_of_eq begins.symm)
      have around := Text.prefix_of_byteLength_le ⟨_, wholeToo.symm⟩ ⟨_, cut.symm⟩
        (Nat.le_of_eq begins)
      exact inside.eq_of_length_le around.length_le
    have newline : c ≠ '\n' := by
      rintro rfl
      exact here.unbroken (by simp)
    refine ⟨?_, by simpa [isBreak, newline] using broken, same ▸ plain, by rw [← same]; rfl⟩
    by_contra nonempty
    have := byteLength_pos nonempty
    rw [byteLength_append, ← same] at reaches
    simp only [Range.single] at reaches
    omega

/-- The range of a carriage return after the last token ends where it begins when the text ends
there too. -/
private theorem locate_stop_return (here : range.OnOneLine source earlier before ['\r'] after)
    (plain : Text.EndsPlain (earlier ++ before))
    (stop : range.stop = byteLength (earlier ++ before) + 1) : Point.locate source range.stop =
      ⟨earlier.count '\n', byteLength before +
        if after = [] then 0 else range.stop - range.start⟩ := by
  have size : range.stop = byteLength (earlier ++ (before ++ ['\r'])) := by
    rw [stop, ← List.append_assoc, byteLength_append _ ['\r']]
    rfl
  cases after with
  | nil =>
    have whole : source.toList = (earlier ++ before) ++ ['\r'] := by simp [here.whole]
    rw [Point.locate_past_return whole plain (by rw [whole, size, List.append_assoc]),
      Point.after_closed here.closed here.before_unbroken, if_pos rfl, Nat.add_zero]
  | cons d after =>
    have next : source.toList = (earlier ++ (before ++ ['\r'])) ++ d :: after := by
      simp [here.whole]
    rw [if_neg (List.cons_ne_nil _ _), stop, here.begins, Nat.add_sub_cancel_left, ← here.begins,
      ← stop, size, Point.locate_start next, Point.after_closed here.closed here.unbroken,
      byteLength_append]
    rfl

/-- Where the range of a diagnostic ends: a carriage return at the end of the text is lost. -/
theorem locate_stop (here : range.OnOneLine source earlier before slice after)
    (placed : range.Plain source ∨ range.AtEnd source) : Point.locate source range.stop =
      ⟨earlier.count '\n', byteLength before +
        if slice = ['\r'] ∧ after = [] then 0 else range.stop - range.start⟩ := by
  rcases List.eq_nil_or_concat' slice with rfl | ⟨middle, c, rfl⟩
  · exact absurd rfl here.nonempty
  by_cases broken : isBreak c = true
  · obtain ⟨rfl, rfl, plain, stop⟩ := here.break_after_token placed broken
    rw [here.locate_stop_return plain stop]
    simp
  · rw [here.locate_stop_plain (Bool.eq_false_iff.mpr broken), if_neg]
    rintro ⟨same, _⟩
    have last : c = '\r' := by
      have := congrArg List.getLast? same
      simpa using this
    exact broken (by rw [last]; rfl)

/-- The characters of the line line up with the bytes of the range when each of them takes one. -/
theorem aligned_iff (here : range.OnOneLine source earlier before slice after) :
    byteLength before = before.length ∧ range.stop - range.start = slice.length ↔
      (∀ c ∈ before ++ slice.dropLast, c.utf8Size = 1) ∧
        range.stop = byteLength (earlier ++ before ++ slice.dropLast) + 1 := by
  obtain ⟨enough, exact⟩ := Text.byteLength_eq_length_iff before
  obtain ⟨enoughToo, exactToo⟩ := Text.byteLength_eq_length_iff slice.dropLast
  have begins := here.begins
  have reaches := here.reaches
  have length : slice.length = slice.dropLast.length + 1 := by
    have := List.length_pos_iff.mpr here.nonempty
    rw [List.length_dropLast]
    omega
  simp only [byteLength_append] at begins reaches ⊢
  rw [List.forall_mem_append, ← exact, ← exactToo]
  omega

end Range.OnOneLine

namespace Diagnostic

theorem quotation_single {lines : List (List Char)} (found : lines[number]? = some line) :
    quotation lines number number = barred (toString (number + 1)) line := by
  have once : number + 1 - number = 1 := by omega
  simp [quotation, once, found]

/-- What the report shows of a range within one line. -/
private theorem render_on_one_line {source : String} {error : Diagnostic}
    (here : error.range.OnOneLine source earlier before slice after)
    (placed : error.range.Plain source ∨ error.range.AtEnd source) :
    ∃ line, (Text.lines source.toList)[earlier.count '\n']? = some line ∧ before <+: line ∧
      ∀ file, error.render source file = .whole (error.heading source file ++
        barred (toString (earlier.count '\n' + 1)) line) ++
        (if slice = ['\r'] ∧ after = [] then .whole "" else
          marks (byteLength before) (error.range.stop - error.range.start)) ++
        .whole "    │\n" := by
  obtain ⟨c, more, rfl⟩ := List.exists_cons_of_ne_nil here.nonempty
  have other : c ≠ '\n' := by
    rintro rfl
    exact here.unbroken (by simp)
  have whole : source.toList = (earlier ++ before) ++ c :: (more ++ after) := by
    simp [here.whole]
  obtain ⟨line, found, inside⟩ := Text.line_at (earlier ++ before) other (more ++ after)
  rw [← whole, Text.count_line here.before_unbroken] at found
  rw [Text.lastLine_closed here.closed here.before_unbroken] at inside
  refine ⟨line, found, inside, fun file => ?_⟩
  have proper : error.range.start < error.range.stop := by
    have reaches := here.reaches
    rw [byteLength_append, here.begins] at reaches
    omega
  rw [render_eq (by simp [whole]) here.locate_start (here.locate_stop placed), underline_eq,
    quotation_single found]
  congr 2
  by_cases lost : c :: more = ['\r'] ∧ after = []
  · simp [lost]
  · simp only [if_neg lost]
    rw [if_pos ⟨trivial, by omega⟩, Nat.add_sub_cancel_left]

/-- Each error with a range inside the text and no newline in it lies within one line.  The report
quotes this line and underlines the range, unless it is a carriage return at the end of the text,
and breaks off below the line if that takes too many spaces or carets.  Spaces and carets stand for
bytes.  They are as many as the characters before the range and in it exactly when none of these but
the last takes more than a byte, and the range has just one byte of the last. -/
theorem underline_counts_bytes {source : String} {error : Diagnostic}
    (failed : typeOfSource source = .error error) :
    (error.range.stop ≤ byteLength source.toList → ¬ error.range.HasNewline source →
      ∃ earlier before slice after, error.range.OnOneLine source earlier before slice after) ∧
    ∀ earlier before slice after, error.range.OnOneLine source earlier before slice after →
      let spaces := byteLength before
      let carets := error.range.stop - error.range.start
      (∃ line, (Text.lines source.toList)[earlier.count '\n']? = some line ∧ before <+: line ∧
        ∀ file,
          let top := error.heading source file ++ barred (toString (earlier.count '\n' + 1)) line
          error.render source file =
            if slice = ['\r'] ∧ after = [] then .whole (top ++ "    │\n")
            else if spaces ≤ widestField ∧ carets ≤ widestField then
              .whole (top ++ caretLine spaces carets ++ "    │\n")
            else .brokenOff top) ∧
      (caretLine spaces carets = caretLine before.length slice.length ↔
        (∀ c ∈ before ++ slice.dropLast, c.utf8Size = 1) ∧
          error.range.stop = byteLength (earlier ++ before ++ slice.dropLast) + 1) := by
  have placed : error.range.Plain source ∨ error.range.AtEnd source :=
    (typeOfSource_placed failed).imp_right And.right
  constructor
  · intro within unbroken
    rcases placed with plain | ⟨before, after, whole, _, single⟩
    · obtain ⟨before, ⟨after, whole⟩, begins, proper, _⟩ := plain.located
      exact Range.OnOneLine.of_unbroken whole.symm begins proper within unbroken
    · refine Range.OnOneLine.of_unbroken whole ?_ ?_ within unbroken
      · rw [single]
        rfl
      · rw [single]
        exact Nat.lt_succ_self _
  · intro earlier before slice after here spaces carets
    obtain ⟨line, found, inside, rendered⟩ := render_on_one_line here placed
    refine ⟨⟨line, found, inside, fun file => ?_⟩, caretLine_inj.trans here.aligned_iff⟩
    rw [rendered]
    split
    · simp
    · exact around_marks _ _ _ _

/-- Four carets stand under three characters. -/
theorem quoted_letter_underlined :
    let source := "1\n(if \"é\" 1 2)"
    let error : Diagnostic :=
      ⟨"test of if must be a boolean but found 'string' in (if \"é\" 1 2)", ⟨6, 10⟩⟩
    typeOfSource source = .error error ∧
      error.range.OnOneLine source "1\n".toList "(if ".toList "\"é\"".toList " 1 2)".toList ∧
      (∃ line, (Text.lines source.toList)[1]? = some line ∧ "(if ".toList <+: line ∧
        ∀ file, error.render source file = .whole (error.heading source file ++ barred "2" line ++
          caretLine 4 4 ++ "    │\n")) ∧
      caretLine 4 4 ≠ caretLine "(if ".toList.length "\"é\"".toList.length := by
  intro source error
  have failed : typeOfSource source = .error error := by decide +kernel
  have here : error.range.OnOneLine source "1\n".toList "(if ".toList "\"é\"".toList
      " 1 2)".toList :=
    ⟨by decide +kernel, by simp [Text.Closed], by decide, by decide, by decide, by decide⟩
  obtain ⟨rendered, aligned⟩ := (underline_counts_bytes failed).2 _ _ _ _ here
  refine ⟨failed, here, rendered, fun same => ?_⟩
  have single := (aligned.mp same).1 'é' (by decide)
  exact absurd single (by decide)

/-- After a letter of two bytes the caret stands one column too far to the right. -/
theorem caret_misses_name :
    let source := "\"é\" y"
    let error : Diagnostic := ⟨"unbound variable 'y'", ⟨5, 6⟩⟩
    typeOfSource source = .error error ∧
      error.range.OnOneLine source [] "\"é\" ".toList "y".toList [] ∧
      error.render source "main" = .whole (error.heading source "main" ++
        barred "1" source.toList ++ caretLine 5 1 ++ "    │\n") ∧
      caretLine 5 1 ≠ caretLine "\"é\" ".toList.length "y".toList.length := by
  intro source error
  refine ⟨by decide +kernel, ⟨by decide +kernel, nofun, by decide, by decide, by decide, by decide⟩,
    by decide +kernel, ?_⟩
  decide

end Diagnostic

end TypedForms
