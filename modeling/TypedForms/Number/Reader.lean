import TypedForms.Number.Basic

/-! Reading numbers.  Source text writes a number as a numeral: digits with an
optional sign and an optional fraction.
-/
namespace TypedForms.Number

/-- The value of a numeral without its sign. -/
def ofUnsigned (negative : Bool) (numeral : List Char) : Number :=
  let whole := numeral.takeWhile (· != '.')
  let fraction := (numeral.dropWhile (· != '.')).drop 1
  ofDecimal negative ⟨Nat.ofDigitChars 10 (whole ++ fraction) 0, -(fraction.length : Int)⟩

/-- The value of a numeral.  Too great a numeral is an infinity. -/
def ofNumeral : List Char → Number
  | '-' :: rest => ofUnsigned true rest
  | numeral => ofUnsigned false numeral

end TypedForms.Number
