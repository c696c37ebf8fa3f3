-- The text of a query. Each stage of a plan has a line of its own, a stage that is missing
-- has none, and every line ends in a line feed.
import ShopQuery.Query.Plan
import ShopQuery.Text.Line

namespace ShopQuery

/-! ## Lines of one clause -/

/-- A node as a pattern shows it. -/
def Label.pattern (l : Label) : String := "(" ++ l.var ++ ": " ++ l.name ++ ")"

/-- A step along a relationship as a pattern shows it. -/
def Traversal.pattern (t : Traversal) : String :=
  t.source.pattern ++ "-[" ++ t.var ++ ":" ++ t.name ++ "]->" ++ t.target.pattern

def Traversal.line (t : Traversal) : String :=
  match t.mode with
  | .required => "MATCH " ++ t.pattern
  | .optional => "OPTIONAL MATCH " ++ t.pattern
  | .made =>
    "CALL apoc.create.vRelationship(" ++ t.source.var ++ ", '" ++ t.name ++ "', \x7b\x7d, "
      ++ t.target.var ++ ") YIELD rel AS " ++ t.var

/-- The properties of a node that is made. -/
def renderProperties (properties : List (String × Literal)) : String :=
  ", ".intercalate (properties.map fun p => p.1 ++ ": " ++ p.2.render)

namespace Clause

/-- The lines of a clause: two for a lookup, and one for any other clause. -/
def lines : Clause → List String
  | node label .required _ => ["MATCH " ++ label.pattern]
  | node label .optional _ => ["OPTIONAL MATCH " ++ label.pattern]
  | node label .made properties =>
    ["CALL apoc.create.vNode(['" ++ label.name ++ "'], \x7b" ++ renderProperties properties
      ++ "\x7d) YIELD node AS " ++ label.var]
  | lookup label key value =>
    [ "MATCH (" ++ label.var ++ ":" ++ label.name ++ ")",
      "WHERE " ++ label.var ++ "." ++ key ++ " = " ++ value.render ]
  | contains label property needle =>
    ["WHERE " ++ label.var ++ "." ++ property ++ " CONTAINS " ++ needle.render]
  | traversal step => [step.line]

end Clause

/-! ## Lines of a plan -/

/-- The line that keeps all that is bound and adds the value. -/
def Aggregation.line (a : Aggregation) : String :=
  "WITH *, " ++ a.function ++ "(" ++ a.argument ++ ") as " ++ a.name

/-- What is returned: a star for whatever is bound, or the variables in their order. -/
def Projection.returned : Projection → String
  | all => "*"
  | vars names => ", ".intercalate names

def Projection.line (p : Projection) : String := "RETURN " ++ p.returned

@[simp] theorem Projection.line_all : all.line = "RETURN *" := by decide

@[simp] theorem Projection.line_vars (names : List String) :
    (vars names).line = "RETURN " ++ ", ".intercalate names := rfl

namespace Plan

/-- The line that sorts; an empty expression sorts nothing. -/
def sortLine? (p : Plan) : Option String :=
  (p.orderBy.filter fun e => !e.isEmpty).map ("ORDER BY " ++ ·)

def limitLine? (p : Plan) : Option String :=
  p.limit.map fun n => "LIMIT " ++ toString n.toNat

/-- The lines of a plan in the order of its stages. -/
def lines (p : Plan) : List String :=
  p.body.clauses.flatMap Clause.lines
    ++ (p.aggregation.map Aggregation.line).toList
    ++ [p.projection.line]
    ++ p.sortLine?.toList
    ++ p.limitLine?.toList

end Plan

/-! ## Queries -/

/-- A query as text. -/
structure Query where
  cypher : String
  deriving DecidableEq, Repr

/-- The name of the language that queries are written in. -/
def Query.language : String := "cypher"

/-- The text of a plan. -/
def Plan.render (p : Plan) : Query := ⟨Text.ofLines p.lines⟩

end ShopQuery
