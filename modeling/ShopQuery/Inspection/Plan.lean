-- Inspecting: one node, found by its key, with all its stored relationships.
import ShopQuery.Inspection.Params
import ShopQuery.Query.Plan
import ShopQuery.Text.Numeral

namespace ShopQuery

/-- What is to be inspected. -/
structure Inspection where
  /-- The label as the caller spelled it. -/
  label : String
  params : Params
  /-- How many results to give; never zero, and without a bound of its own. -/
  limit : Option UInt64
  deriving DecidableEq, Repr

/-- The inspection of a label with parameters. The parameter `limit` counts when it is a
positive number. -/
def Inspection.ofParams (label : String) (params : Params) : Inspection :=
  { label, params
    limit := (((params.get? "limit").map Text.trim).bind Text.unsigned64?).filter (0 < ·) }

/-! ## Faults -/

/-- Why there is nothing to inspect. -/
inductive InspectionFault
  /-- No stored label is spelled like this. -/
  | unknownLabel (spelling : String)
  /-- The parameters do not hold the key of the label. -/
  | missingKey (spelling : String) (key : String)
  deriving DecidableEq, Repr

namespace InspectionFault

def message : InspectionFault → String
  | unknownLabel spelling => "'" ++ spelling ++ "' is invalid node label"
  | missingKey _ key => "Primary key '" ++ key ++ "' not provided in query params"

/-- The label as the caller spelled it. -/
def spelling : InspectionFault → String
  | unknownLabel spelling => spelling
  | missingKey spelling _ => spelling

end InspectionFault

/-! ## Plans -/

namespace Inspection

/-- The clauses that find one node and follow each of its stored relationships. -/
def body (schema : Schema) (label : Label) (key value : String) : Body :=
  .ofList (.lookup label key (.ofText value)
    :: (schema.neighbours label).map fun r => .traversal (r.traversal .optional))

/-- The plan of an inspection over a schema. -/
def plan (i : Inspection) (schema : Schema) : Except InspectionFault Plan :=
  match schema.keyed? i.label with
  | none => .error (.unknownLabel i.label)
  | some (label, key) =>
    match i.params.get? key with
    | none => .error (.missingKey i.label key)
    | some value => .ok { body := body schema label key value, limit := i.limit }

end Inspection

/-- The plan that inspects a label with parameters. -/
def Schema.inspect (schema : Schema) (label : String) (params : Params) :
    Except InspectionFault Plan :=
  (Inspection.ofParams label params).plan schema

end ShopQuery
