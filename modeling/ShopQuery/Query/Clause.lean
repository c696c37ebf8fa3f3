-- The clauses of a query.
import ShopQuery.Query.Literal
import ShopQuery.Schema.Basic

namespace ShopQuery

/-- How a clause comes by its part of the graph. -/
inductive Mode
  /-- It is matched, and without a match there is no result. -/
  | required
  /-- It is matched, and without a match the part is missing from the result. -/
  | optional
  /-- It is made from the request. -/
  | made
  deriving DecidableEq, Repr

/-- A step along a relationship from one label to another. -/
structure Traversal where
  var : String
  name : String
  source : Label
  target : Label
  mode : Mode
  deriving DecidableEq, Repr

/-- The step along a relationship of a schema. A virtual relationship is always made. -/
def Relationship.traversal (r : Relationship) (mode : Mode) : Traversal :=
  { var := r.var
    name := r.name
    source := r.source
    target := r.target
    mode := if r.isVirtual then .made else mode }

/-- One clause of a query. -/
inductive Clause
  /-- A node; the properties are those of a node that is made. -/
  | node (label : Label) (mode : Mode) (properties : List (String × Literal))
  /-- The node whose property `key` has the value. -/
  | lookup (label : Label) (key : String) (value : Literal)
  /-- The condition that a property contains a text. -/
  | contains (label : Label) (property : String) (needle : Literal)
  | traversal (step : Traversal)
  deriving DecidableEq, Repr

namespace Clause

/-- The labels whose nodes the clause binds. -/
def labels : Clause → List Label
  | node label _ _ => [label]
  | lookup label _ _ => [label]
  | contains _ _ _ => []
  | traversal step => [step.source, step.target]

/-- The relationship variables that the clause binds. -/
def vars : Clause → List String
  | traversal step => [step.var]
  | _ => []

end Clause

end ShopQuery
