-- What a search returns: every variable that its clauses bind, in an order that depends on
-- what is bound and not on when it was.
import ShopQuery.Query.Plan
import ShopQuery.Search.Basic

namespace ShopQuery

/-- The last stage of a search. -/
structure Returned where
  aggregation : Option Aggregation
  projection : Projection
  deriving DecidableEq, Repr

namespace Body

/-- The node variables in return order, then the relationship variables in the order of their
characters. -/
def returnedVars (b : Body) : List String :=
  (Label.inReturnOrder.filter b.binds).map Label.var
    ++ b.vars.mergeSort fun x y => decide (x ≤ y)

/-- The number of orders. It can be counted only where keyword and orders are bound, and is
counted only where the results are sorted by it. -/
def orderCounting (b : Body) (s : Search) : Option Aggregation :=
  if s.sortsByCount && b.binds .keyword && b.binds .order then
    some ⟨"COUNT", Label.order.var, orderCount⟩
  else none

def returned (b : Body) (s : Search) : Returned :=
  { aggregation := b.orderCounting s
    projection := .vars b.returnedVars }

end Body

end ShopQuery
