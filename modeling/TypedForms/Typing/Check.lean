import TypedForms.Tree.Printer
import TypedForms.Ty.Compatible
import TypedForms.Typing.Error

/-! Computations of the checker.

A check may fail, creates names for type variables and keeps a log.  The names
and the log survive a failure: what was created or logged before it stays.
-/
namespace TypedForms

/-- What the checker notes while it works. -/
inductive Event where
  /-- A program with so many top level expressions is about to be checked. -/
  | program (count : Nat)
  /-- An expression is about to be checked. -/
  | typing (expr : Expr)
  /-- Compatibility of two types has been decided. -/
  | decided (decision : Ty.Decision)
  /-- A definition has been checked and is visible from here on. -/
  | defined (name : String) (type : Ty)

namespace Event

/-- An event written out. -/
def text : Event → String
  | .program count =>
    "checking program with " ++ toString count ++ " top level expressions"
  | .typing expr => "typing " ++ expr.text
  | .decided decision => decision.text
  | .defined name type => "defined '" ++ name ++ "' as " ++ type.text

/-- Programs and definitions are worth a line in a short log; the rest is for a full one. -/
def isBrief : Event → Bool
  | .program _ | .defined .. => true
  | .typing _ | .decided _ => false

end Event

/-- The letters of a number in base 26, `a` for zero, the most significant letter first. -/
def baseLetters (n : Nat) : List Char :=
  if n < 26 then [Char.ofNat (97 + n)]
  else baseLetters (n / 26) ++ [Char.ofNat (97 + n % 26)]
termination_by n

/-- The name of the type variable that is created after `n` others. -/
def generatedName (n : Nat) : String :=
  String.ofList ('\'' :: baseLetters n)

/-- How a check ended: its result, the names it created and what it logged, both in order. -/
structure Outcome (α : Type) where
  result : Except TypeError α
  created : List String
  events : List Event

/-- A check, from the count of names created before it. -/
def Check (α : Type) : Type := Nat → Outcome α

namespace Check

/-- Ends at once with a value. -/
def done (value : α) : Check α := fun _ => ⟨.ok value, [], []⟩

/-- Goes on with the value of the first check.  A failure of the first is a failure of both. -/
def andThen (first : Check α) (next : α → Check β) : Check β := fun count =>
  match first count with
  | ⟨.error error, created, events⟩ => ⟨.error error, created, events⟩
  | ⟨.ok value, created, events⟩ =>
    let later := next value (count + created.length)
    ⟨later.result, created ++ later.created, events ++ later.events⟩

instance : Monad Check where
  pure := done
  bind := andThen

theorem andThen_ok {first : Check α} {next : α → Check β} {count : Nat} {value : α}
    {created : List String} {events : List Event}
    (ended : first count = ⟨.ok value, created, events⟩) :
    andThen first next count =
      ⟨(next value (count + created.length)).result,
        created ++ (next value (count + created.length)).created,
        events ++ (next value (count + created.length)).events⟩ := by
  simp [andThen, ended]

theorem andThen_error {first : Check α} {next : α → Check β} {count : Nat} {error : TypeError}
    {created : List String} {events : List Event}
    (ended : first count = ⟨.error error, created, events⟩) :
    andThen first next count = ⟨.error error, created, events⟩ := by
  simp [andThen, ended]

private theorem andThen_done (check : Check α) : andThen check done = check := by
  funext count
  match ended : check count with
  | ⟨.ok value, created, events⟩ => simp [andThen_ok ended, done]
  | ⟨.error error, created, events⟩ => exact andThen_error ended

private theorem andThen_assoc (check : Check α) (next : α → Check β) (last : β → Check γ) :
    andThen (andThen check next) last =
      andThen check (fun value => andThen (next value) last) := by
  funext count
  match ended : check count with
  | ⟨.error error, created, events⟩ =>
    rw [andThen_error ended, andThen_error (andThen_error ended)]
  | ⟨.ok value, created, events⟩ =>
    have inner : andThen check next count = _ := andThen_ok ended
    rw [andThen_ok ended]
    match middle : next value (count + created.length) with
    | ⟨.error error, later, _⟩ =>
      rw [middle] at inner
      rw [andThen_error middle, andThen_error inner]
    | ⟨.ok result, later, _⟩ =>
      rw [middle] at inner
      rw [andThen_ok middle, andThen_ok inner]
      simp [Nat.add_assoc]

instance : LawfulMonad Check := LawfulMonad.mk' Check
  (fun check => andThen_done check)
  (fun value next => by funext count; simp [Pure.pure, Bind.bind, done, andThen])
  (fun check next last => andThen_assoc check next last)

/-- Ends with an error. -/
def fail (error : TypeError) : Check α := fun _ => ⟨.error error, [], []⟩

/-- Writes to the log. -/
def log (events : List Event) : Check Unit := fun _ => ⟨.ok (), [], events⟩

/-- Creates a name. -/
def newName : Check String := fun count => ⟨.ok (generatedName count), [generatedName count], []⟩

/-- Creates a type variable. -/
def newVar : Check Ty := do
  let name ← newName
  return .var name

/-- Decides compatibility and logs every decision on the way. -/
def compatible (left right : Ty) : Check Bool := do
  log ((Ty.decisions left right).map .decided)
  return left.compatible right

/-- Runs a check before which no name has been created. -/
def run (check : Check α) : Outcome α := check 0

end Check

end TypedForms
