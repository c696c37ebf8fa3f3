-- Labels, requests and queries as JSON values give them. A structure may be an object, whose
-- unknown members are passed over, or an array of exactly its fields.
import ShopQuery.Json.Value
import ShopQuery.Query.Cypher
import ShopQuery.Search.Request

namespace ShopQuery

/-! ## Parts of values -/

namespace Json

/-- The text of a string. -/
def Value.text? : Value → Option String
  | .string content => content
  | _ => none

/-- A text that may be missing: the inner option is empty for null. -/
def Value.optionalText? : Value → Option (Option String)
  | .null => some none
  | v => v.text?.map some

/-- The member of an object with a name: at most one may have it. -/
def member? (members : List (Content × Value)) (name : String) : Option (Option Value) :=
  match members.filter (·.1 == some name) with
  | [] => some none
  | [m] => some (some m.2)
  | _ => none

/-- A member whose text may be null or missing. -/
def optionalMember? (members : List (Content × Value)) (name : String) :
    Option (Option String) := do
  match ← member? members name with
  | none => some none
  | some v => v.optionalText?

/-- The members whose names are texts, or nothing if one is not. -/
def namedMembers? (members : List (Content × Value)) : Option (List (String × Value)) :=
  members.mapM fun m => m.1.map fun name => (name, m.2)

end Json

open Json (Value)

/-! ## Labels -/

/-- A label is its name, or an object that maps its name to null. -/
def Label.ofJson? : Value → Option Label
  | .string (some name) => ofName? name
  | .object [(some name, .null)] => ofName? name
  | _ => none

/-! ## Requests -/

/-- Filters are an object from labels to texts; of two members with one label the later one
counts. -/
def Filters.ofJson? : Value → Option Filters
  | .object members => do
    let entries ← members.mapM fun m => do
      let label ← Label.ofName? (← m.1)
      return (label, ← m.2.text?)
    return ofList entries
  | _ => none

/-- A request is an object, whose members may all be missing, or an array of the four parts. -/
def Request.ofJson? : Value → Option Request
  | .object members => do
    let _ ← Json.namedMembers? members
    let keyword ← Json.optionalMember? members "keyword"
    let filters ← match ← Json.member? members "filters" with
      | none => some .empty
      | some v => Filters.ofJson? v
    let orderBy ← Json.optionalMember? members "order_by"
    let limit ← Json.optionalMember? members "limit"
    return { keyword, filters, orderBy, limit }
  | .array [keyword, filters, orderBy, limit] => do
    return { keyword := ← keyword.optionalText?
             filters := ← Filters.ofJson? filters
             orderBy := ← orderBy.optionalText?
             limit := ← limit.optionalText? }
  | _ => none

/-! ## Queries -/

/-- A query is an object with its text, or an array of it. -/
def Query.ofJson? : Value → Option Query
  | .object members => do
    let _ ← Json.namedMembers? members
    let cypher ← (← Json.member? members "cypher").bind Value.text?
    return { cypher }
  | .array [cypher] => cypher.text?.map fun text => { cypher := text }
  | _ => none

/-! ## Texts -/

def Label.ofJsonText? (s : String) : Option Label := (Value.read? s).bind Label.ofJson?

def Request.ofJsonText? (s : String) : Option Request := (Value.read? s).bind Request.ofJson?

def Query.ofJsonText? (s : String) : Option Query := (Value.read? s).bind Query.ofJson?

end ShopQuery
