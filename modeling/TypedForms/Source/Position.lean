import TypedForms.Text.Lines

/-! Places in a source text: byte offsets and ranges of them, and the lines and
columns that a reader sees.
-/
namespace TypedForms

/-- A stretch of the source text by its byte offsets, the end excluded. -/
structure Range where
  start : Nat
  stop : Nat
deriving DecidableEq

/-- A line and a column, both counted from zero.  Columns count bytes. -/
structure Point where
  line : Nat
  column : Nat
deriving DecidableEq

namespace Range

/-- The range of length one at an offset. -/
def single (offset : Nat) : Range := ⟨offset, offset + 1⟩

/-- Where nothing has been placed yet. -/
def origin : Range := ⟨0, 0⟩

end Range

namespace Point

/-- Readers count lines and columns from one. -/
def text (point : Point) : String :=
  toString (point.line + 1) ++ ":" ++ toString (point.column + 1)

/-- Looks for an offset in the segments that follow; `line` is the number of the first of them
and `last` the place to answer when the offset lies beyond all of them. -/
def locateIn (line : Nat) (last : Point) : List (List Char) → Nat → Point
  | [], _ => last
  | segment :: later, offset =>
    if offset < Text.byteLength segment then
      ⟨line, offset⟩
    else
      locateIn (line + 1) ⟨line, Text.byteLength (Text.withoutTrailingBreaks segment)⟩ later
        (offset - Text.byteLength segment)

/-- The line and column of a byte offset.  An offset at or past the end of the text lands on the
last line, after its last character that is no line break. -/
def locate (source : String) (offset : Nat) : Point :=
  locateIn 0 ⟨0, 0⟩ (Text.segments source.toList) offset

end Point

/-- The two places of a range as a reader sees them; one place is written once. -/
def Range.text (range : Range) (source : String) : String :=
  let first := Point.locate source range.start
  let last := Point.locate source range.stop
  if first = last then first.text else first.text ++ "~" ++ last.text

end TypedForms
