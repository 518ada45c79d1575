import TypedForms.Source.Position

/-! Diagnostics: a message about a range of the source, and the report that
quotes the lines of the range and underlines it.  A field that is too wide for
the printer ends a report before its time.
-/
namespace TypedForms

/-- What is wrong and where. -/
structure Diagnostic where
  message : String
  range : Range
deriving DecidableEq

/-- What has been written: a text to its end, or a text up to a field that was too wide. -/
inductive Printed where
  | whole (text : String)
  | brokenOff (text : String)
deriving DecidableEq

namespace Printed

/-- Writes on.  Nothing follows a text that has been broken off. -/
def append : Printed → Printed → Printed
  | .whole text, .whole more => .whole (text ++ more)
  | .whole text, .brokenOff more => .brokenOff (text ++ more)
  | .brokenOff text, _ => .brokenOff text

instance : Append Printed := ⟨append⟩

/-- What is said of a field that is too wide. -/
def breakMessage : String := "Formatting argument out of range"

end Printed

namespace Diagnostic

/-- The width of the widest field that can be printed, if it is computed while printing. -/
def widestField : Nat := 65535

/-- The text that stands at the right end of a field of the given width. -/
def alignRight (width : Nat) (text : String) : String :=
  String.ofList (List.replicate (width - text.length) ' ') ++ text

/-- The column left of the quoted lines is wide enough for line numbers of three digits. -/
def gutter (number : String) : String :=
  alignRight 3 number ++ " │"

/-- The lines of the text from one line number to another, both included, each with its number. -/
def quoted (source : String) (first last : Nat) : List (Nat × List Char) :=
  (((Text.lines source.toList).zipIdx.drop first).take (last + 1 - first)).map fun line =>
    (line.2, line.1)

/-- A quoted line behind its number, which counts from one. -/
def quotedText (line : Nat × List Char) : String :=
  gutter (toString (line.1 + 1)) ++ " " ++ String.ofList line.2 ++ "\n"

/-- Carets under a range inside one line.  A range over several lines and one that ends where it
begins have none.  The spaces before the carets are a field, and so are the carets. -/
def underline (first last : Point) : Printed :=
  if first.line = last.line ∧ first.column < last.column then
    if first.column ≤ widestField ∧ last.column - first.column ≤ widestField then
      .whole (gutter "" ++ " " ++ String.ofList (List.replicate first.column ' ') ++
        String.ofList (List.replicate (last.column - first.column) '^') ++ "\n")
    else
      .brokenOff ""
  else
    .whole ""

/-- The report: the message, the place, the lines of the range and the underline. -/
def render (diagnostic : Diagnostic) (source file : String) : Printed :=
  let first := Point.locate source diagnostic.range.start
  let last := Point.locate source diagnostic.range.stop
  .whole ("\n[error]: " ++ diagnostic.message ++ "\n\n" ++
    alignRight 3 "" ++ " ┌─> " ++ file ++ ":" ++ first.text ++ "\n" ++
    gutter "" ++ "\n" ++
    String.join ((quoted source first.line last.line).map quotedText)) ++
    underline first last ++
    .whole (gutter "" ++ "\n")

end Diagnostic

end TypedForms
