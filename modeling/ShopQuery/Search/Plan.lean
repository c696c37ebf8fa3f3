-- Exploring: the plan that finds the products of a search and what is related to them.
import ShopQuery.Schema.Retail
import ShopQuery.Search.Returned

namespace ShopQuery

/-- The property of a product that is searched for the keyword. -/
def searchedProperty : String := "product_name"

/-- The property of the virtual node that holds the keyword. -/
def keywordProperty : String := "keyword"

namespace Search

/-- The clauses before the relationships: a node for the keyword, the products, and the
condition that their names contain the keyword. -/
def rootClauses : Option String → List Clause
  | none => [.node .product .required []]
  | some keyword =>
    [ .node .keyword .made [(keywordProperty, .text keyword)],
      .node .product .required [],
      .contains .product searchedProperty (.text keyword) ]

/-- The clauses of a search over a schema. -/
def body (s : Search) (schema : Schema) : Body :=
  .ofList (rootClauses s.keyword
    ++ (schema.triggered s.asked).map fun r => .traversal (r.traversal .optional))

/-- The plan of a search over a schema. -/
def plan (s : Search) (schema : Schema) : Plan :=
  let body := s.body schema
  let returned := body.returned s
  { body
    aggregation := returned.aggregation
    projection := returned.projection
    orderBy := s.orderBy
    limit := some s.limit.toUInt64 }

end Search

/-- The plan of a request. -/
def Schema.explore (schema : Schema) (paging : Paging) (request : Request) : Plan :=
  (request.toSearch paging).plan schema

end ShopQuery
