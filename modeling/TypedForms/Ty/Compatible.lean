import TypedForms.Ty.Basic

/-! Compatibility: whether a type can stand for another one at a place of use.

The relation is not symmetric.  Procedures are compared result by result, and
parameter by parameter in the opposite direction; unions are compared by the
tags of their components only; and a type that is no procedure may stand for a
procedure with one parameter when it can stand for that parameter.
-/
namespace TypedForms.Ty

/-- Some type of the list has the given tag. -/
def includesTag (types : List Ty) (tag : Tag) : Bool :=
  types.any fun type => type.tag == tag

/-- Compatibility of two types that are not both procedures. -/
def fits : Ty → Ty → Bool
  | .union members, .union others => members.all fun member => includesTag others member.tag
  | .union members, .proc [param] _ => !param.isProc && fits (.union members) param
  | .union members, right => right.isAtomic && includesTag members right.tag
  | left, .proc [param] _ => left.isAtomic && fits left param
  | left, right => left == right

mutual

/-- Compatibility with its direction: `flipped` says that the first type stands on the right.
Going down both types at once, parameters turn the direction round. -/
def relates (flipped : Bool) : Ty → Ty → Bool
  | .proc params result, .proc params' result' =>
    params.length == params'.length && relates flipped result result' &&
      relatesAll (!flipped) params params'
  | type, type' => if flipped then fits type' type else fits type type'

/-- The types of two lists are related pair by pair. -/
def relatesAll (flipped : Bool) : List Ty → List Ty → Bool
  | type :: rest, type' :: rest' => relates flipped type type' && relatesAll flipped rest rest'
  | _, _ => true

end

/-- Decides whether `left` can stand for `right`. -/
def compatible (left right : Ty) : Bool :=
  relates false left right

/-- An answer given while compatibility is decided. -/
structure Decision where
  left : Ty
  right : Ty
  holds : Bool
deriving DecidableEq

namespace Decision

/-- The answer about two types. -/
def about (left right : Ty) : Decision := ⟨left, right, compatible left right⟩

/-- A decision written out. -/
def text (decision : Decision) : String :=
  "compatible(" ++ decision.left.text ++ ", " ++ decision.right.text ++ ") = " ++
    (if decision.holds then "true" else "false")

end Decision

/-- The decisions about two types that are not both procedures, inner ones first. -/
def fitsDecisions : Ty → Ty → List Decision
  | .union members, .proc [param] result =>
    (if param.isProc then [] else fitsDecisions (.union members) param) ++
      [.about (.union members) (.proc [param] result)]
  | left, .proc [param] result =>
    (if left.isAtomic && !param.isAtomic then fitsDecisions left param else []) ++
      [.about left (.proc [param] result)]
  | left, right => [.about left right]

mutual

/-- The decisions about two types in the order in which they are reached, inner ones first.  What
follows a negative answer is not reached. -/
def directedDecisions (flipped : Bool) : Ty → Ty → List Decision
  | .proc params result, .proc params' result' =>
    (if params.length == params'.length then
      directedDecisions flipped result result' ++
        (if relates flipped result result' then
          directedDecisionsAll (!flipped) params params'
        else [])
    else []) ++
      [if flipped then .about (.proc params' result') (.proc params result)
        else .about (.proc params result) (.proc params' result')]
  | type, type' => if flipped then fitsDecisions type' type else fitsDecisions type type'

/-- The decisions about the pairs of two lists, up to the first negative answer. -/
def directedDecisionsAll (flipped : Bool) : List Ty → List Ty → List Decision
  | type :: rest, type' :: rest' =>
    directedDecisions flipped type type' ++
      (if relates flipped type type' then directedDecisionsAll flipped rest rest' else [])
  | _, _ => []

end

/-- The decisions made to decide whether `left` can stand for `right`; the last is the answer. -/
def decisions (left right : Ty) : List Decision :=
  directedDecisions false left right

end TypedForms.Ty
