/-! Lines of a text and lengths in bytes.

A text is a sequence of segments, each ending with its newline; only the last
one may lack it.  Offsets count the bytes of the encoded text, so lengths do too.
-/
namespace TypedForms.Text

/-- The number of bytes that the characters take in UTF-8. -/
def byteLength : List Char → Nat
  | [] => 0
  | c :: rest => c.utf8Size + byteLength rest

/-- Cuts a text after every newline.  No segment is empty and together they are the text. -/
def segments : List Char → List (List Char)
  | [] => []
  | c :: rest =>
    if c = '\n' then
      [c] :: segments rest
    else
      match segments rest with
      | [] => [[c]]
      | segment :: later => (c :: segment) :: later

/-- A segment without the newline that ends it and the carriage return right before that
newline.  A segment that ends otherwise is left alone, a lone carriage return included. -/
def withoutTerminator (segment : List Char) : List Char :=
  match segment.reverse with
  | '\n' :: '\r' :: rest => rest.reverse
  | '\n' :: rest => rest.reverse
  | _ => segment

/-- A segment without any of the carriage returns and newlines at its end. -/
def withoutTrailingBreaks (segment : List Char) : List Char :=
  (segment.reverse.dropWhile fun c => c == '\r' || c == '\n').reverse

/-- The lines of a text as they are quoted, without what ends them. -/
def lines (text : List Char) : List (List Char) :=
  (segments text).map withoutTerminator

end TypedForms.Text
