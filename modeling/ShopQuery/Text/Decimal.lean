-- Decimal fractions: how they are written, and which of them are finite as a number of
-- double precision. The comparison is exact, so no rounding happens here.
import ShopQuery.Text.Numeral

namespace ShopQuery.Text

/-- The magnitude of a decimal fraction: the number that `digits` writes, times ten to the
power `exponent`. The sign is left out, since no question asked here depends on it. -/
structure Decimal where
  digits : List Char
  exponent : Int
  deriving DecidableEq, Repr

namespace Decimal

/-! ## Reading -/

/-- What follows the digits: nothing, or `e` and a whole number. -/
def exponent? : List Char → Option Int
  | [] => some 0
  | c :: rest => if c == 'e' || c == 'E' then integer? rest else none

/-- A fraction without a sign: digits with at most one point among or beside them, at least
one digit in all, and perhaps an exponent. -/
def magnitude? (cs : List Char) : Option Decimal :=
  let whole := cs.takeWhile isDigit
  let (fraction, tail) := match cs.dropWhile isDigit with
    | '.' :: rest => (rest.takeWhile isDigit, rest.dropWhile isDigit)
    | rest => ([], rest)
  if whole.isEmpty && fraction.isEmpty then none
  else (exponent? tail).map fun e => ⟨whole ++ fraction, e - fraction.length⟩

/-- A fraction with a sign in front or none. -/
def read? : List Char → Option Decimal
  | '+' :: rest => magnitude? rest
  | '-' :: rest => magnitude? rest
  | cs => magnitude? cs

/-! ## Range -/

/-- The least magnitude that double precision rounds to infinity: half a unit above the
largest finite number. -/
def overflowBound : Nat := Nat.pow 2 1024 - Nat.pow 2 970

/-- The fraction lies below `overflowBound`. A number of `n` significant digits and exponent
`e` is below `10 ^ (n + e)` and not below `10 ^ (n + e - 1)`, and the bound lies between
`10 ^ 308` and `10 ^ 309`; so only the fractions near the bound are compared in full. -/
def isFinite (d : Decimal) : Bool :=
  let significant := d.digits.dropWhile (· == '0')
  let size := significant.length + d.exponent
  if significant.isEmpty || size ≤ 308 then true
  else if 309 < size then false
  else
    decimalValue significant * Nat.pow 10 d.exponent.toNat
      < overflowBound * Nat.pow 10 (-d.exponent).toNat

end Decimal

/-- The text is a decimal fraction that is finite in double precision. -/
def isFiniteNumber (s : String) : Bool :=
  (Decimal.read? s.toList).any Decimal.isFinite

end ShopQuery.Text
