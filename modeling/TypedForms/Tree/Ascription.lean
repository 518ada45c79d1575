import TypedForms.Source.Position

/-! Type ascriptions as they are written, with the place of each node. -/
namespace TypedForms

/-- A type ascription.  A union keeps its members in the order and nesting of the source. -/
inductive Ascription where
  | number (range : Range)
  | boolean (range : Range)
  | string (range : Range)
  | void (range : Range)
  | named (range : Range) (name : String)
  | proc (range : Range) (params : List Ascription) (result : Ascription)
  | union (range : Range) (members : List Ascription)

namespace Ascription

/-- The place of a node. -/
def range : Ascription → Range
  | .number range | .boolean range | .string range | .void range => range
  | .named range _ | .proc range _ _ | .union range _ => range

mutual

/-- The ascription written out with single spaces. -/
def text : Ascription → String
  | .number _ => "number"
  | .boolean _ => "boolean"
  | .string _ => "string"
  | .void _ => "void"
  | .named _ name => name
  | .proc _ [] result => "(Empty -> " ++ result.text ++ ")"
  | .proc _ (param :: params) result =>
    "(" ++ " * ".intercalate (param.text :: texts params) ++ " -> " ++ result.text ++ ")"
  | .union _ members => "(union " ++ " ".intercalate (texts members) ++ ")"

/-- The texts of a list of ascriptions. -/
def texts : List Ascription → List String
  | [] => []
  | ascription :: rest => ascription.text :: texts rest

end

end Ascription

end TypedForms
