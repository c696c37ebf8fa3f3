-- Requests as JSON values. What is missing in a request is written as null.
import ShopQuery.Json.Printer
import ShopQuery.Search.Request

namespace ShopQuery

open Json (Value)

/-! ## Parts of values -/

namespace Json

/-- An object with these members. -/
def Value.ofMembers (members : List (String × Value)) : Value :=
  .object (members.map fun m => (some m.1, m.2))

/-- A text that may be missing: null stands for one that is. -/
def Value.ofText? : Option String → Value
  | none => .null
  | some text => .string (some text)

end Json

/-! ## Requests -/

/-- The filters as an object, in the order of `Label.all`. -/
def Filters.toJson (f : Filters) : Value :=
  .ofMembers (f.toList.map fun e => (e.1.name, .string (some e.2)))

/-- The request as an object with all its members. -/
def Request.toJson (r : Request) : Value :=
  .ofMembers
    [ ("keyword", .ofText? r.keyword), ("filters", r.filters.toJson),
      ("order_by", .ofText? r.orderBy), ("limit", .ofText? r.limit) ]

end ShopQuery
