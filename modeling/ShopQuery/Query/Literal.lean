-- Values that a query text holds, as a number or between quotes.
import ShopQuery.Text.Blank
import ShopQuery.Text.Decimal
import ShopQuery.Text.Quotable

namespace ShopQuery

/-- A value inside a query text. -/
inductive Literal
  /-- Stands between single quotes. -/
  | text (content : String)
  /-- Stands as it is written. -/
  | number (digits : String)
  deriving DecidableEq, Repr

namespace Literal

/-- The value that a text gives. A finite number without the blanks around it is a number; the
quotable part of anything else, blanks included, is a text. -/
def ofText (s : String) : Literal :=
  if Text.isFiniteNumber (Text.trim s) then number (Text.trim s) else text (Text.quotable s)

/-- The value as the query holds it. -/
def render : Literal → String
  | text content => "'" ++ content ++ "'"
  | number digits => digits

end Literal

end ShopQuery
