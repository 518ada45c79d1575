/-! Numbers of the language: the values of the binary64 format.

A finite value is kept as its rank among the magnitudes of the format, so equal
values are equal data and every rank is a value.  Arithmetic on ranks is exact
arithmetic of natural numbers in units of 2^-1074, the least positive magnitude.
-/
namespace TypedForms

/-- How many finite magnitudes the format has, zero included. -/
def Number.magnitudes : Nat := 2047 * Nat.pow 2 52

/-- A value of the binary64 format. -/
inductive Number where
  | nan
  | infinite (negative : Bool)
  | finite (negative : Bool) (rank : Fin Number.magnitudes)
deriving DecidableEq

namespace Number

/-- The magnitudes of the first 2^52 ranks are whole units; from there on a significand has 53
binary digits. -/
def significand (rank : Nat) : Nat :=
  if rank < Nat.pow 2 52 then rank else Nat.pow 2 52 + rank % Nat.pow 2 52

/-- The binary exponent that goes with the significand.  It grows by one every 2^52 ranks. -/
def shift (rank : Nat) : Nat := rank / Nat.pow 2 52 - 1

/-- The natural number nearest to a fraction; halfway between two, the even one. -/
def roundHalfEven (numerator denominator : Nat) : Nat :=
  let quotient := numerator / denominator
  let twice := 2 * (numerator % denominator)
  if twice < denominator then quotient
  else if denominator < twice then quotient + 1
  else quotient + quotient % 2

/-- The rank of the magnitude nearest to a fraction.  The shift leaves 53 binary digits before
rounding; rounding up to 2^53 moves on to the first rank with the next shift.  Ranks from
`magnitudes` on stand for fractions too great for the format. -/
def nearestRank (numerator denominator : Nat) : Nat :=
  let scaled := numerator * Nat.pow 2 1074
  let shift := (scaled / denominator).log2 - 52
  shift * Nat.pow 2 52 + roundHalfEven scaled (denominator * Nat.pow 2 shift)

/-- The number of a sign and a rank; a rank out of bounds is an infinity. -/
def ofRank (negative : Bool) (rank : Nat) : Number :=
  if bounded : rank < magnitudes then .finite negative ⟨rank, bounded⟩ else .infinite negative

/-- The decimal fraction `digits · 10 ^ exponent`. -/
structure Decimal where
  digits : Nat
  exponent : Int
deriving DecidableEq

/-- The rank of the magnitude nearest to a decimal fraction. -/
def Decimal.rank (decimal : Decimal) : Nat :=
  nearestRank (decimal.digits * Nat.pow 10 decimal.exponent.toNat)
    (Nat.pow 10 (-decimal.exponent).toNat)

/-- The number nearest to a decimal fraction with a sign. -/
def ofDecimal (negative : Bool) (decimal : Decimal) : Number :=
  ofRank negative decimal.rank

end Number

end TypedForms
