-- The statements of a TOML text: headers, and entries with their values. Values may nest; the
-- values that are open and not closed yet stand on a stack of bounded depth.
import ShopQuery.Toml.Table
import ShopQuery.Toml.Token

namespace ShopQuery.Toml

/-- One line of a document, or several that hold one value. -/
inductive Statement
  /-- `[path]` -/
  | header (path : List String)
  /-- `[[path]]` -/
  | element (path : List String)
  /-- `path = value` -/
  | entry (path : List String) (value : Node)
  deriving Repr

/-! ## Reading -/

/-- How deep arrays and inline tables may stand in each other. -/
def maxDepth : Nat := 80

/-- How many parts a dotted key may have. -/
def maxParts : Nat := 80

/-- A value that is open. -/
inductive Frame
  /-- An array with its items so far, latest first. -/
  | array (items : List Node)
  /-- An inline table with its entries so far; the value under the key is due. -/
  | table (entries : Entries) (key : List String)

/-- A statement whose value is being read: its key, and the values that are open. -/
structure Pending where
  key : List String
  stack : List Frame

/-- What a key is read for. -/
inductive KeyRole
  | header
  | element
  | entry
  /-- The key of a further entry of an inline table. -/
  | member (entries : Entries) (pending : Pending)

/-- What may come next. -/
inductive Expectation
  /-- A statement. -/
  | statement
  /-- The end of the line. -/
  | lineEnd
  /-- After `[` at the start of a line. -/
  | bracket
  /-- A part of a key, after the parts so far, latest first. -/
  | part (role : KeyRole) (parts : List String)
  /-- What follows a part of a key. -/
  | afterPart (role : KeyRole) (parts : List String)
  /-- The second of two closing brackets. -/
  | secondBracket (path : List String)
  /-- The sign `=` of an entry of an inline table, on a line below the key. -/
  | equals (entries : Entries) (key : List String) (pending : Pending)
  /-- A value, of a statement or of an entry of an inline table. -/
  | value (pending : Pending)
  /-- More of a word, which so far holds these characters. -/
  | word (chars : List Char) (pending : Pending)
  /-- After a word and this blank. -/
  | afterWord (chars : List Char) (blank : List Char) (pending : Pending)
  /-- An item of an array, or its end. -/
  | item (pending : Pending)
  /-- A comma or the end of an array. -/
  | afterItem (items : List Node) (pending : Pending)
  /-- An entry of an inline table, or its end. -/
  | member (entries : Entries) (pending : Pending)
  /-- A comma or the end of an inline table. -/
  | afterMember (entries : Entries) (pending : Pending)

/-- The statements that have been read, latest first, and what may come next. -/
structure Reader where
  statements : List Statement := []
  expectation : Expectation := .statement

/-- A word that may be a key. -/
def isBareKey (chars : List Char) : Bool :=
  chars.all fun c =>
    Text.isDigit c || ('a' ≤ c && c ≤ 'z') || ('A' ≤ c && c ≤ 'Z') || c == '_' || c == '-'

/-- The part of a key that a token gives. -/
def keyPart? : Token → Option String
  | .word chars => if isBareKey chars then some (String.ofList chars) else none
  | .text content => some content
  | _ => none

namespace Reader

variable (r : Reader)

def expect (e : Expectation) : Option Reader := some { r with expectation := e }

/-- The reader after a statement, for the rest of whose line it waits. -/
def emit (s : Statement) : Reader := ⟨s :: r.statements, .lineEnd⟩

/-- A value has come to its end. -/
def give? (value : Node) (p : Pending) : Option Reader :=
  match p.stack with
  | [] => some (r.emit (.entry p.key value))
  | .array items :: stack => r.expect (.afterItem (value :: items) { p with stack })
  | .table entries key :: stack =>
    (entries.insert? value key).bind fun entries =>
      r.expect (.afterMember entries { p with stack })

/-- A word has come to its end. -/
def giveWord? (chars : List Char) (p : Pending) : Option Reader :=
  (Scalar.ofWord? chars).bind fun value => r.give? (.scalar value) p

/-- A token where a value is due. -/
def begin? (p : Pending) : Token → Option Reader
  | .word chars => r.expect (.word chars p)
  | .text content => r.give? (.scalar (.text content)) p
  | .block content => r.give? (.scalar (.text content)) p
  | .openBracket =>
    if p.stack.length < maxDepth then r.expect (.item { p with stack := .array [] :: p.stack })
    else none
  | .openBrace => if p.stack.length < maxDepth then r.expect (.member [] p) else none
  | _ => none

/-- The sign `=` of an entry of an inline table has been read. -/
def openEntry? (entries : Entries) (key : List String) (p : Pending) : Option Reader :=
  r.expect (.value { p with stack := .table entries key :: p.stack })

/-- A token after a part of a key. In an inline table the line may end after the key, which has then
no further part. -/
def afterPart? (role : KeyRole) (parts : List String) (t : Token) : Option Reader :=
  let path := parts.reverse
  match t, role with
  | .blank _, _ => r.expect (.afterPart role parts)
  | .dot, _ => if parts.length < maxParts then r.expect (.part role parts) else none
  | .closeBracket, .header => some (r.emit (.header path))
  | .closeBracket, .element => r.expect (.secondBracket path)
  | .equals, .entry => r.expect (.value ⟨path, []⟩)
  | .equals, .member entries p => r.openEntry? entries path p
  | .newline, .member entries p => r.expect (.equals entries path p)
  | _, _ => none

/-- A token where a key goes on with a part. -/
def part? (role : KeyRole) (parts : List String) (t : Token) : Option Reader :=
  match t with
  | .blank _ => r.expect (.part role parts)
  | t => (keyPart? t).bind fun part => r.expect (.afterPart role (part :: parts))

/-- A token where no word is being read. The line may end before the value of an entry of an inline
table, but not before the value of a statement. -/
def settled? (t : Token) : Option Reader :=
  match r.expectation, t with
  | .statement, .blank _ | .statement, .newline => some r
  | .statement, .openBracket => r.expect .bracket
  | .statement, t => r.part? .entry [] t
  | .lineEnd, .blank _ => some r
  | .lineEnd, .newline => r.expect .statement
  | .bracket, .openBracket => r.expect (.part .element [])
  | .bracket, t => r.part? .header [] t
  | .part role parts, t => r.part? role parts t
  | .afterPart role parts, t => r.afterPart? role parts t
  | .secondBracket path, .closeBracket => some (r.emit (.element path))
  | .equals .., .blank _ | .equals .., .newline => some r
  | .equals entries key p, .equals => r.openEntry? entries key p
  | .value _, .blank _ => some r
  | .value p, .newline => if p.stack.isEmpty then none else some r
  | .value p, t => r.begin? p t
  | .item _, .blank _ | .item _, .newline => some r
  | .item p, .closeBracket =>
    match p.stack with
    | .array items :: stack => r.give? (.array items.reverse) { p with stack }
    | _ => none
  | .item p, t => r.begin? p t
  | .afterItem _ _, .blank _ | .afterItem _ _, .newline => some r
  | .afterItem items p, .comma => r.expect (.item { p with stack := .array items :: p.stack })
  | .afterItem items p, .closeBracket => r.give? (.array items.reverse) p
  | .member _ _, .blank _ | .member _ _, .newline => some r
  | .member entries p, .closeBrace => r.give? (.table .inline entries) p
  | .member entries p, t => r.part? (.member entries p) [] t
  | .afterMember _ _, .blank _ | .afterMember _ _, .newline => some r
  | .afterMember entries p, .comma => r.expect (.member entries p)
  | .afterMember entries p, .closeBrace => r.give? (.table .inline entries) p
  | _, _ => none

/-- One token more. A word goes on over a dot, and over one space between a date and a time. -/
def step? (t : Token) : Option Reader :=
  match r.expectation, t with
  | .word chars p, .word more => r.expect (.word (chars ++ more) p)
  | .word chars p, .dot => r.expect (.word (chars ++ ['.']) p)
  | .word chars p, .blank blank => r.expect (.afterWord chars blank p)
  | .afterWord chars [' '] p, .word more => r.expect (.word (chars ++ ' ' :: more) p)
  | .word chars p, t | .afterWord chars _ p, t => (r.giveWord? chars p).bind fun r => r.settled? t
  | _, t => r.settled? t

/-- The statements, if the text may end here. -/
def finish? : Option (List Statement) :=
  match r.expectation with
  | .statement | .lineEnd => some r.statements.reverse
  | .word chars p | .afterWord chars _ p =>
    (r.giveWord? chars p).bind fun r =>
      match r.expectation with
      | .lineEnd => some r.statements.reverse
      | _ => none
  | _ => none

end Reader

/-- The statements that the tokens make. -/
def Statement.ofTokens? (tokens : List Token) : Option (List Statement) :=
  (tokens.foldlM Reader.step? {}).bind Reader.finish?

end ShopQuery.Toml
