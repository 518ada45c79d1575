/-! The order of texts, and sorting by a text that each item carries. -/
namespace TypedForms.Text

/-- Text order: by the first code point that differs, a proper beginning first.  The bytes of the
encoded texts are in the same order. -/
def precedes (left right : String) : Bool :=
  left.toList.lex right.toList fun c d => c.toNat < d.toNat

/-- Puts an item in front of the first one whose text does not precede its own. -/
def insertBy (key : α → String) (item : α) : List α → List α
  | [] => [item]
  | head :: rest =>
    if precedes (key head) (key item) then head :: insertBy key item rest
    else item :: head :: rest

/-- Sorts items by their texts; items with one text keep their order. -/
def sortBy (key : α → String) (items : List α) : List α :=
  items.foldr (insertBy key) []

end TypedForms.Text
