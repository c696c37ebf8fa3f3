-- Plans: the body of a query and what is done with the results that it finds.
import ShopQuery.Query.Body

namespace ShopQuery

/-- A value computed from all results under a name of its own. -/
structure Aggregation where
  function : String
  /-- The variable that the function is applied to. -/
  argument : String
  /-- The name of the value. -/
  name : String
  deriving DecidableEq, Repr

/-- What a query returns. -/
inductive Projection
  /-- Whatever is bound. -/
  | all
  | vars (names : List String)
  deriving DecidableEq, Repr

/-- A query, stage by stage. -/
structure Plan where
  body : Body := .empty
  aggregation : Option Aggregation := none
  projection : Projection := .all
  /-- The expression that sorts the results. -/
  orderBy : Option String := none
  limit : Option UInt64 := none
  deriving DecidableEq

end ShopQuery
