import TypedForms.Number.Basic

/-! Writing numbers: the fewest digits that read back as the number, of those
the nearest, written out in full without an exponent.
-/
namespace TypedForms.Number

/-- A magnitude as a decimal fraction.  Every unit is a decimal fraction, since two divides ten. -/
def exactDecimal (rank : Nat) : Decimal :=
  let places := 1074 - shift rank
  ⟨significand rank * Nat.pow 2 (shift rank - 1074) * Nat.pow 5 places, -(places : Int)⟩

/-- Looks for a decimal that passes the test, with at most `dropped` digits of the exact one left
out.  For each count of digits the two neighbours of the exact value are tried, the nearer one
first, and the upper one first at equal distance.  With no digit left out the exact decimal
itself remains. -/
def shortestFrom (passes : Decimal → Bool) (exact : Decimal) : Nat → Decimal
  | 0 => exact
  | dropped + 1 =>
    let unit := Nat.pow 10 (dropped + 1)
    let below := exact.digits / unit
    let upperFirst : Bool := unit ≤ 2 * (exact.digits % unit)
    let exponent := exact.exponent + (dropped + 1 : Nat)
    let near : Decimal := ⟨if upperFirst then below + 1 else below, exponent⟩
    let far : Decimal := ⟨if upperFirst then below else below + 1, exponent⟩
    if passes near then near
    else if passes far then far
    else shortestFrom passes exact dropped

/-- The shortest decimal that reads back as the magnitude. -/
def shortest (rank : Nat) : Decimal :=
  if rank = 0 then ⟨0, 0⟩
  else
    let exact := exactDecimal rank
    shortestFrom (fun decimal => decimal.rank == rank) exact (Nat.toDigits 10 exact.digits).length

/-- A decimal written out: zeros fill the places up to the units or down to the point. -/
def Decimal.text (decimal : Decimal) : List Char :=
  let digits := Nat.toDigits 10 decimal.digits
  let places := (-decimal.exponent).toNat
  if places = 0 then
    digits ++ List.replicate decimal.exponent.toNat '0'
  else if places < digits.length then
    digits.take (digits.length - places) ++ '.' :: digits.drop (digits.length - places)
  else
    '0' :: '.' :: List.replicate (places - digits.length) '0' ++ digits

/-- The sign of a number, written for zero too. -/
def sign (negative : Bool) : String := if negative then "-" else ""

/-- The text of a number.  Infinities and the undefined value have names that no numeral has. -/
def text : Number → String
  | .nan => "NaN"
  | .infinite negative => sign negative ++ "inf"
  | .finite negative rank => sign negative ++ String.ofList (shortest rank.val).text

end TypedForms.Number
