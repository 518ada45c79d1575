import TypedForms.Text.Order
import TypedForms.Tree.Ascription
import TypedForms.Ty.Basic

/-! Building unions in normal form, and the types that ascriptions denote.

A union in normal form has at least two components, none of them a union, no
two the same, in ascending order of their texts.
-/
namespace TypedForms.Ty

/-- The alternatives of a type: the members of a union, or the type itself. -/
def components : Ty → List Ty
  | .union members => members
  | type => [type]

/-- The union of types whose alternatives have been collected.  A single one is not wrapped. -/
def ofComponents : List Ty → Ty
  | [type] => type
  | types => .union types

/-- The union of a list of types.  Members that are unions give their own members, but no deeper
ones; repeated components count once, and the rest is sorted. -/
def unionOf (members : List Ty) : Ty :=
  ofComponents (Text.sortBy text (members.flatMap components).eraseDups)

/-- The union of two types. -/
def join (left right : Ty) : Ty :=
  unionOf [left, right]

mutual

/-- The type that an ascription denotes, its unions in normal form. -/
def ofAscription : Ascription → Ty
  | .number _ => .number
  | .boolean _ => .boolean
  | .string _ => .string
  | .void _ => .void
  | .named _ name => .var name
  | .proc _ params result => .proc (ofAscriptions params) (ofAscription result)
  | .union _ members => unionOf (ofAscriptions members)

/-- The types that a list of ascriptions denotes. -/
def ofAscriptions : List Ascription → List Ty
  | [] => []
  | ascription :: rest => ofAscription ascription :: ofAscriptions rest

end

end TypedForms.Ty
