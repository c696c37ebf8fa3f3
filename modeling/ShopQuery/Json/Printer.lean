-- Writing JSON: strings with their escapes, objects of strings with one member a line, and any
-- value without space.
import ShopQuery.Json.Value

namespace ShopQuery.Json

open Text (hexDigit)

/-! ## Strings -/

/-- The characters that stand for one character of a string. -/
def escape (c : Char) : List Char :=
  match c with
  | '\x22' => ['\x5c', '\x22']
  | '\x5c' => ['\x5c', '\x5c']
  | '\x08' => ['\x5c', 'b']
  | '\x0c' => ['\x5c', 'f']
  | '\n' => ['\x5c', 'n']
  | '\r' => ['\x5c', 'r']
  | '\t' => ['\x5c', 't']
  | _ =>
    if c.toNat < 0x20 then
      ['\x5c', 'u', '0', '0', hexDigit (c.toNat / 16), hexDigit (c.toNat % 16)]
    else [c]

/-- The string between its quotes. -/
def quote (s : String) : String :=
  String.ofList ('\x22' :: (s.toList.flatMap escape ++ ['\x22']))

/-! ## Objects of strings -/

/-- An object of strings, each member indented on a line of its own. The object has a member. -/
def printObject (members : List (String × String)) : String :=
  "\x7b\n" ++ ",\n".intercalate (members.map fun m => "  " ++ quote m.1 ++ ": " ++ quote m.2)
    ++ "\n\x7d"

/-! ## The tokens of a value -/

mutual

/-- The tokens of a value in order. -/
def Value.tokens : Value → List Token
  | .null => [.null]
  | .bool b => [.bool b]
  | .number digits => [.number digits]
  | .string content => [.string content]
  | .array [] => [.openArray, .closeArray]
  | .array (v :: items) => .openArray :: (v.tokens ++ furtherItems items)
  | .object [] => [.openObject, .closeObject]
  | .object ((name, v) :: members) =>
    .openObject :: .string name :: .colon :: (v.tokens ++ furtherMembers members)

/-- The tokens of the items behind another one, and the end of the array. -/
def furtherItems : List Value → List Token
  | [] => [.closeArray]
  | v :: items => .comma :: (v.tokens ++ furtherItems items)

/-- The tokens of the members behind another one, and the end of the object. -/
def furtherMembers : List (Content × Value) → List Token
  | [] => [.closeObject]
  | (name, v) :: members => .comma :: .string name :: .colon :: (v.tokens ++ furtherMembers members)

end

/-! ## The compact text of a value -/

/-- The shortest text of a token. A string in which half a pair stands is written as half a pair. -/
def Token.text : Token → List Char
  | openObject => ['\x7b']
  | closeObject => ['\x7d']
  | openArray => ['[']
  | closeArray => [']']
  | colon => [':']
  | comma => [',']
  | null => ['n', 'u', 'l', 'l']
  | bool true => ['t', 'r', 'u', 'e']
  | bool false => ['f', 'a', 'l', 's', 'e']
  | number digits => digits.toList
  | string (some content) => (quote content).toList
  | string none => ['\x22', '\x5c', 'u', 'd', '8', '0', '0', '\x22']

/-- The text of a value without any space. -/
def Value.text (v : Value) : String := String.ofList (v.tokens.flatMap Token.text)

end ShopQuery.Json
