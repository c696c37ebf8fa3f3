-- JSON values, and how they are built from tokens. The values that are open and not closed
-- yet stand on a stack, so a text may nest them as deep as it likes.
import ShopQuery.Json.Token

namespace ShopQuery.Json

/-- A JSON value. Numbers keep their spelling, objects the order of their members and the
members with one name. -/
inductive Value
  | null
  | bool (value : Bool)
  | number (digits : String)
  | string (content : Content)
  | array (items : List Value)
  | object (members : List (Content × Value))
  deriving Inhabited, Repr

/-! ## Building -/

/-- A value that is open; what it holds so far stands latest first. -/
inductive Frame
  | array (items : List Value)
  /-- The value of the member with this name is due. -/
  | object (members : List (Content × Value)) (name : Content)

/-- What may come next. -/
inductive Reader
  /-- A value. -/
  | value (stack : List Frame)
  /-- The first item of an array, or its end. -/
  | firstItem (stack : List Frame)
  /-- A comma or the end of an array. -/
  | afterItem (items : List Value) (stack : List Frame)
  /-- The name of the first member of an object, or its end. -/
  | firstName (stack : List Frame)
  /-- The name of a further member. -/
  | name (members : List (Content × Value)) (stack : List Frame)
  /-- The colon after a name. -/
  | colon (members : List (Content × Value)) (name : Content) (stack : List Frame)
  /-- A comma or the end of an object. -/
  | afterMember (members : List (Content × Value)) (stack : List Frame)
  /-- Nothing: the value is complete. -/
  | complete (value : Value)

namespace Reader

/-- A value has come to its end inside the values of a stack. -/
def give (v : Value) : List Frame → Reader
  | [] => complete v
  | .array items :: stack => afterItem (v :: items) stack
  | .object members key :: stack => afterMember ((key, v) :: members) stack

/-- A token where a value is due. -/
def begin? (stack : List Frame) : Token → Option Reader
  | .null => some (give .null stack)
  | .bool b => some (give (.bool b) stack)
  | .number digits => some (give (.number digits) stack)
  | .string content => some (give (.string content) stack)
  | .openArray => some (firstItem stack)
  | .openObject => some (firstName stack)
  | _ => none

/-- One token more. -/
def step? : Reader → Token → Option Reader
  | value stack, t => begin? stack t
  | firstItem stack, .closeArray => some (give (.array []) stack)
  | firstItem stack, t => begin? (.array [] :: stack) t
  | afterItem items stack, .comma => some (value (.array items :: stack))
  | afterItem items stack, .closeArray => some (give (.array items.reverse) stack)
  | firstName stack, .closeObject => some (give (.object []) stack)
  | firstName stack, .string key => some (colon [] key stack)
  | name members stack, .string key => some (colon members key stack)
  | colon members key stack, .colon => some (value (.object members key :: stack))
  | afterMember members stack, .comma => some (name members stack)
  | afterMember members stack, .closeObject => some (give (.object members.reverse) stack)
  | _, _ => none

end Reader

/-- The value that the tokens make. -/
def Value.ofTokens? (tokens : List Token) : Option Value :=
  match tokens.foldlM Reader.step? (.value []) with
  | some (.complete v) => some v
  | _ => none

/-- The value of a text. -/
def Value.read? (s : String) : Option Value := (tokens? s).bind Value.ofTokens?

end ShopQuery.Json
